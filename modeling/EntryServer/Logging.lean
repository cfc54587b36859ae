import EntryServer.Text.Ascii

/-! # Log levels -/
namespace EntryServer.Logging
set_option autoImplicit false

/-- The names of the levels. A configuration may write them in any case. -/
def levels : List Text :=
  ["trace".toList, "debug".toList, "info".toList, "warn".toList, "error".toList]

/-- The filter that applies one level to the program and to its request log. -/
def defaultFilter (level : Text) : Text :=
  "smartweb=".toList ++ Ascii.lower level ++ ",tower_http=".toList ++ Ascii.lower level

end EntryServer.Logging
