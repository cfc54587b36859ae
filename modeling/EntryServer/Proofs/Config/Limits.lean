import EntryServer.Http.Server
import EntryServer.Program
import EntryServer.Proofs.Acl.Listing
import EntryServer.Proofs.Auth.Nonces

/-! # What an accepted configuration leaves open

A configuration that is accepted has addresses that can be read, and numbers that are not zero. That they are not too
large is left open: the slots of a listener have to be counted, and the end of a nonce has to be a time of the clock. -/
namespace EntryServer.Config
set_option autoImplicit false
open EntryServer.Auth (Authenticator Cache Call Nonce authenticate? cacheAfter challengedHost exists_cached
  fitsClock_cacheAfter)

section Accepted
variable {c : Config}

theorem unless_eq_nil {holds : Bool} {fault : Fault} : unless_ holds fault = [] ↔ holds = true := by
  cases holds with
  | true => simp [unless_]
  | false => simp [unless_]

theorem addresses_of_accepted (hc : faults c = []) : Net.isSocketAddress c.listener.bindAddress = true ∧
    (!c.observability.metricsEnabled || Net.isSocketAddress c.observability.metricsAddress) = true := by
  simp only [faults, List.append_eq_nil_iff, unless_eq_nil] at hc
  exact ⟨by simp [hc], by simp [hc]⟩

theorem checkMetrics_of_accepted (hc : faults c = []) : Startup.checkMetrics c.observability = .ok () := by
  have hmetrics := (addresses_of_accepted hc).2
  rw [Startup.checkMetrics, if_neg]
  cases h : c.observability.metricsEnabled with
  | true => simpa [h] using hmetrics
  | false => simp

theorem prepareIn_metrics (hc : faults c = []) (t : FileTree) (value : Text) :
    Startup.prepareIn t c ≠ .error (.metricsAddress value) := by
  rw [Startup.prepareIn, checkMetrics_of_accepted hc]
  cases Tls.resolveAcceptor t c with
  | error e => simp [Except.mapError, Bind.bind, Except.bind]
  | ok acceptor =>
    cases Net.Listener.bind c.listener.bindAddress c.listener.maxConnections with
    | error e => simp [Except.mapError, Bind.bind, Except.bind]
    | ok listener => simp [Except.mapError, Bind.bind, Except.bind, Pure.pure, Except.pure]

/-- The address for metrics is read in the same way a second time. -/
theorem prepare_metrics (hc : faults c = []) (t : FileTree) (value : Text) :
    (Startup.prepare c t).1 ≠ .error (.metricsAddress value) := by
  rw [Startup.prepare]
  split
  · simp
  · exact prepareIn_metrics hc _ value

theorem bind_address (hc : faults c = []) :
    Net.Listener.bind c.listener.bindAddress c.listener.maxConnections ≠ .error .invalidAddress := by
  rw [Net.Listener.bind, (addresses_of_accepted hc).1]
  simp only [Bool.not_true, Bool.false_eq_true, if_false]
  split
  · simp
  · simp

/-- With an address that can be read, the listener is there exactly if its slots can be counted. -/
theorem bind_slots (hc : faults c = []) :
    Net.Listener.bind c.listener.bindAddress c.listener.maxConnections ≠ .error .tooManySlots ↔
      c.listener.maxConnections ≤ Net.Listener.slotLimit := by
  rw [Net.Listener.bind, (addresses_of_accepted hc).1]
  simp only [Bool.not_true, Bool.false_eq_true, if_false]
  split
  · next hmany => simp [Nat.not_le.mpr hmany]
  · next hfew => simp [Nat.not_lt.mp hfew]

end Accepted

/-! ## The clock -/

/-- The host with two domains, so that one of them is challenged whatever domain is open to everybody. -/
def twofold : FileTree :=
  ["admin".toList, "staff".toList].foldl
    (fun t d => ((Store.write ((Acl.scopeOf challengedHost d).child Acl.realmKey) []).run.run t).2)
    (FileTree.empty "data/".toList)

/-- A first call on that host. -/
def knock (now : Nat) : Call :=
  ⟨twofold, ⟨challengedHost, challengedHost, "GET".toList, "/".toList, []⟩, now,
    fun _ => .ofBytes (List.replicate 12 0) (List.replicate 12 1)⟩

theorem knock_domains (a : Authenticator) (now : Nat) : (knock now).domains a ≠ [] := by
  have hnames : (Acl.listingChain twofold challengedHost).flatMap (Acl.namesAt twofold) =
      ["admin".toList, "staff".toList] := by decide +kernel
  have hmem : ∀ d, d ∈ (knock now).domains a ↔ d ∈ ["admin".toList, "staff".toList] ∧
      Acl.isDomain a.anonymous d = true := by
    intro d
    rw [Call.domains, knock, Acl.domains_eq, List.mem_eraseDups, List.mem_filter, hnames]
  by_cases hadmin : a.anonymous = "admin".toList
  · exact List.ne_nil_of_mem ((hmem "staff".toList).mpr ⟨by simp, by rw [hadmin]; decide⟩)
  · refine List.ne_nil_of_mem ((hmem "admin".toList).mpr ⟨by simp, ?_⟩)
    rw [Acl.isDomain, Bool.and_eq_true]
    exact ⟨decide_eq_true (Ne.symm hadmin), by decide⟩

/-- Calls up to some time go through exactly if a nonce that is issued at that time ends before the clock does. -/
theorem calls_go_through_iff (a : Authenticator) (latest : Nat) :
    (∀ (calls : List Call) (call : Call), (∀ k ∈ call :: calls, k.now ≤ latest) →
      authenticate? a call.tree call.request call.now call.draw (cacheAfter a calls) ≠ none) ↔
    latest + a.validity < Cache.clockLimit := by
  constructor
  · intro h
    by_contra hlimit
    -- the first call leaves a nonce of the latest time, and the second one asks whether it has expired
    obtain ⟨kn, hkn, hcreated, hvalidity⟩ := exists_cached (knock_domains a latest)
    have htimes : ∀ k ∈ [knock latest, knock latest], k.now ≤ latest := by simp [knock]
    refine h [knock latest] (knock latest) htimes ?_
    have hexpiry : ¬ kn.2.expiry < Cache.clockLimit := by
      rw [Nonce.expiry, hcreated, hvalidity]
      exact hlimit
    have hfits : ¬ (cacheAfter a [knock latest]).fitsClock = true :=
      fun hall => hexpiry (of_decide_eq_true (List.all_eq_true.mp hall kn hkn))
    rw [authenticate?, if_neg hfits]
  · intro hlimit calls call htimes
    have hfits := fitsClock_cacheAfter (fun k hk => htimes k (List.mem_cons_of_mem call hk)) hlimit
    rw [authenticate?, if_pos hfits]
    exact Option.some_ne_none _

/-! ## Accepted configurations -/

/-- Up to a time, a server with the configuration starts and answers as far as it depends on its addresses and
numbers. -/
structure Safe (c : Config) (latest : Nat) : Prop where
  metrics : ∀ t value, (Startup.prepare c t).1 ≠ .error (.metricsAddress value)
  address : Net.Listener.bind c.listener.bindAddress c.listener.maxConnections ≠ .error .invalidAddress
  slots : Net.Listener.bind c.listener.bindAddress c.listener.maxConnections ≠ .error .tooManySlots
  clock : ∀ (calls : List Call) (call : Call), (∀ k ∈ call :: calls, k.now ≤ latest) →
    authenticate? (Http.Server.ofConfig c).authenticator call.tree call.request call.now call.draw
      (cacheAfter (Http.Server.ofConfig c).authenticator calls) ≠ none

/-- The addresses of an accepted configuration are read without a fault again. But nothing else goes wrong with it only
if there are no more slots than can be counted, and if a nonce ends before the clock does, even when it is issued at the
latest time. -/
theorem accepted_is_safe_iff (c : Config) (hc : faults c = []) (latest : Nat) :
    (∀ t value, (Startup.prepare c t).1 ≠ .error (.metricsAddress value)) ∧
    Net.Listener.bind c.listener.bindAddress c.listener.maxConnections ≠ .error .invalidAddress ∧
    (Safe c latest ↔ c.listener.maxConnections ≤ Net.Listener.slotLimit ∧
      latest + c.auth.nonceValiditySecs * 1000 < Cache.clockLimit) := by
  refine ⟨prepare_metrics hc, bind_address hc, fun h => ⟨(bind_slots hc).mp h.slots, ?_⟩, fun ⟨hslots, hlimit⟩ => ?_⟩
  · exact (calls_go_through_iff _ latest).mp h.clock
  · exact ⟨prepare_metrics hc, bind_address hc, (bind_slots hc).mpr hslots, (calls_go_through_iff _ latest).mpr hlimit⟩

/-- The default settings are safe for a million years. -/
theorem accepted_is_safe_default : faults {} = [] ∧ Safe {} 31536000000000000 := by
  have hc : faults {} = [] := by decide +kernel
  exact ⟨hc, (accepted_is_safe_iff {} hc _).2.2.mpr (by decide +kernel)⟩

/-- One slot more than can be counted. -/
def crowdedText : String :=
  "[listener]\nbind_address = \"127.0.0.1:0\"\nmax_connections = 2305843009213693952\n[storage]\nroot = \"w\"\n"

/-- The largest number that a setting can have. -/
def lastingText : String := "[auth]\nnonce_validity_secs = 9223372036854775807\n"

def largeSettings : FileTree where
  root := "data/".toList
  nodes := [(["crowded.toml".toList], .file 0), (["lasting.toml".toList], .file 1)]
  blobs := #[Ascii.bytes crowdedText, Ascii.bytes lastingText]

theorem accepted_configuration_can_crash :
    (∃ c, load (Program.configFile largeSettings "crowded.toml".toList) = .ok c ∧ ¬ Safe c 0) ∧
    Program.start ["-c".toList, "crowded.toml".toList] largeSettings = .error ⟨101, []⟩ ∧
    (∃ c, load (Program.configFile largeSettings "lasting.toml".toList) = .ok c ∧ ¬ Safe c 1000 ∧
      authenticate? (Http.Server.ofConfig c).authenticator twofold (knock 1000).request 1000 (knock 1000).draw
        (cacheAfter (Http.Server.ofConfig c).authenticator [knock 1000]) = none) := by
  refine ⟨⟨{ listener := { bindAddress := "127.0.0.1:0".toList, maxConnections := 2305843009213693952 },
             storage := { root := "w".toList } }, by decide +kernel, fun h => absurd h.slots (by decide +kernel)⟩,
    by decide +kernel, { auth := { nonceValiditySecs := 9223372036854775807 } }, by decide +kernel, fun h => ?_, ?_⟩
  · have hlimit := (calls_go_through_iff _ 1000).mp h.clock
    exact absurd hlimit (by decide +kernel)
  · decide +kernel

end EntryServer.Config
