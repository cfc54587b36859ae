import EntryServer.Proofs.Auth.Unconfigured
import EntryServer.Proofs.Http.Pages
import EntryServer.Proofs.Http.Room
import EntryServer.Proofs.Http.Service
import EntryServer.Proofs.Http.Uploads

/-! # The server as a map

On a store that begins empty, requests that stay out of configurations and of stored fields find and leave a map from
entries to pages. Every one of them is authorized, and each is answered from the pages that those before it have
made. -/
namespace EntryServer.Http.Server
set_option autoImplicit false
open EntryPath FileTree Acl
open Store (Change content?)
open Entry (changes answerOf headersOf typeOf putChanges)

/-! ## Requests on pages -/

/-- The paths that a request works on: those of its changes and of its answer, and those of the rules that are open to
everybody. -/
def reaches (s : Server) (r : Request) : List Location :=
  let e := (addressed r).entry
  e.place.data :: ((changes e r.method (r.headers.first? "content-type") r.body).map Change.location ++
    e.ancestors.flatMap fun a =>
      (rules r.method).map fun rule => ((scopeOf a s.authenticator.anonymous).child rule).place.data)

/-- A request on a page, with names that leave room for the endings of files and paths that the system accepts. -/
structure Ordinary (s : Server) (root : Text) (r : Request) : Prop where
  method : r.method = "PUT".toList ∨ r.method = "GET".toList ∨ r.method = "HEAD".toList ∨ r.method = "DELETE".toList
  path : (Target.parse r.target).path.head? = some '/'
  announced : s.announcesTooMuch r = false
  complete : r.body.complete = true
  size : r.body.chunks.flatten.length ≤ s.bodyLimit r
  type : ∀ value ∈ r.headers.first? "content-type", Received value
  metas : ∀ pair ∈ Addressed.pairs (Target.parse r.target), pair.1 = Addressed.metaKey → clean pair.2 ≠ []
  names : ∀ n ∈ (addressed r).entry.hops.filterMap Step.name?, Utf8.size n ≤ 246
  unsealed : isSealed (addressed r).entry = false
  apart : ¬ InFields (addressed r).entry
  paths : ∀ l ∈ s.reaches r, (∀ name ∈ l, '\x00' ∉ name) ∧ (FileTree.empty root).pathSize l < pathLimit

instance (s : Server) (root : Text) (r : Request) : Decidable (Ordinary s root r) :=
  decidable_of_iff ((r.method = "PUT".toList ∨ r.method = "GET".toList ∨ r.method = "HEAD".toList ∨
      r.method = "DELETE".toList) ∧
    (Target.parse r.target).path.head? = some '/' ∧ s.announcesTooMuch r = false ∧ r.body.complete = true ∧
    r.body.chunks.flatten.length ≤ s.bodyLimit r ∧ (∀ value ∈ r.headers.first? "content-type", Received value) ∧
    (∀ pair ∈ Addressed.pairs (Target.parse r.target), pair.1 = Addressed.metaKey → clean pair.2 ≠ []) ∧
    (∀ n ∈ (addressed r).entry.hops.filterMap Step.name?, Utf8.size n ≤ 246) ∧
    isSealed (addressed r).entry = false ∧ ¬ InFields (addressed r).entry ∧
    ∀ l ∈ s.reaches r, (∀ name ∈ l, '\x00' ∉ name) ∧ (FileTree.empty root).pathSize l < pathLimit)
    ⟨fun ⟨h₁, h₂, h₃, h₄, h₅, h₆, h₇, h₈, h₉, h₁₀, h₁₁⟩ => ⟨h₁, h₂, h₃, h₄, h₅, h₆, h₇, h₈, h₉, h₁₀, h₁₁⟩,
      fun h => ⟨h.1, h.2, h.3, h.4, h.5, h.6, h.7, h.8, h.9, h.10, h.11⟩⟩

theorem readWithin_of_size {limit : Nat} {chunks : List Bytes} (h : chunks.flatten.length ≤ limit) (complete : Bool) :
    readWithin complete limit chunks = ⟨chunks, complete⟩ := by
  induction chunks generalizing limit with
  | nil => rfl
  | cons chunk rest ih =>
    rw [List.flatten_cons, List.length_append] at h
    have hchunk : ¬ limit < chunk.length := by omega
    have hrest : rest.flatten.length ≤ limit - chunk.length := by omega
    rw [readWithin, if_neg hchunk, ih hrest]

theorem addressed_canonical (r : Request) : (addressed r).entry.Canonical := Addressed.resolve_canonical _ _

theorem addressed_head (r : Request) : (addressed r).entry.hops.head? ≠ some .metadata := Addressed.resolve_head _ _

namespace Ordinary
variable {s : Server} {root : Text} {r : Request} {t : FileTree}

theorem named (h : Ordinary s root r) (above : List Step) : (addressed r).entry.hops ≠ .dir :: .metadata :: above :=
  Addressed.resolve_named _ (fun value hv => h.metas (Addressed.metaKey, value) hv rfl) above

theorem roomy (h : Ordinary s root r) : Roomy (addressed r).entry.hops :=
  ⟨fun n hn => h.names n (List.mem_filterMap.mpr ⟨.child n, hn, rfl⟩), Addressed.resolve_spaced _ _⟩

theorem received (h : Ordinary s root r) : s.received r = r.body := readWithin_of_size h.size _

theorem accepts (h : Ordinary s root r) (hroot : t.root = root) {l : Location} (hl : l ∈ s.reaches r)
    (hnames : NamesFit l) : t.Fits l := by
  obtain ⟨hnul, hsize⟩ := h.paths l hl
  have hfits : (FileTree.empty root).Fits l := ⟨hnul, hsize, hnames⟩
  exact hfits.congr t hroot

theorem namesFit (h : Ordinary s root r) : ∀ a ∈ (addressed r).entry.ancestors, NamesFit (configFolder a) :=
  namesFit_configs h.roomy (addressed_canonical r) (addressed_head r)

theorem fits_data (h : Ordinary s root r) (hroot : t.root = root) : t.Fits (addressed r).entry.place.data :=
  h.accepts hroot (List.mem_cons_self ..) (namesFit_data (h.namesFit _ (self_mem_ancestors _)))

/-- All changes of the request succeed. -/
theorem fits_changes (h : Ordinary s root r) (hroot : t.root = root) :
    ∀ c ∈ changes (addressed r).entry r.method (r.headers.first? "content-type") r.body, t.Fits c.location := by
  intro c hc
  refine h.accepts hroot (List.mem_cons_of_mem _ (List.mem_append_left _ (List.mem_map_of_mem hc))) ?_
  have hconfig := h.namesFit _ (self_mem_ancestors _)
  have hstaging := h.roomy.staging (addressed_head r)
  rw [changes] at hc
  split at hc
  · rcases Entry.mem_putChanges hc with rfl | rfl | rfl | ⟨value, rfl⟩
    · exact hstaging
    · exact hstaging
    · exact namesFit_fields hconfig
    · exact (roomy_typeOf h.roomy (addressed_head r)).staging (by rw [Entry.typeOf_hops]; simp)
  · split at hc
    · obtain rfl := List.mem_singleton.mp hc
      exact namesFit_data hconfig
    · cases hc

theorem rulesFit (h : Ordinary s root r) (hroot : t.root = root) :
    RulesFit t (addressed r).entry s.authenticator.anonymous r.method := by
  intro a ha rule hrule
  have hreached : ((scopeOf a s.authenticator.anonymous).child rule).place.data ∈ s.reaches r :=
    List.mem_cons_of_mem _ (List.mem_append_right _
      (List.mem_flatMap.mpr ⟨a, ha, List.mem_map.mpr ⟨rule, hrule, rfl⟩⟩))
  obtain ⟨hnul, hsize⟩ := h.paths _ hreached
  have hsizes : t.pathSize ((scopeOf a s.authenticator.anonymous).child rule).place.data =
      (FileTree.empty root).pathSize ((scopeOf a s.authenticator.anonymous).child rule).place.data := by
    rw [pathSize, hroot]
    rfl
  exact ⟨hnul, hsizes ▸ hsize⟩

/-- A request that is authorized without a challenge is answered as its entry is handled. -/
theorem decided (h : Ordinary s root r) (state : State) :
    s.decided (addressed r) (Target.parse r.target) r state (⟨true, []⟩, []) =
      (answerOf ((Entry.handle (addressed r).entry r.method (r.headers.first? "content-type")
        r.body).run.run state.files).1, [], ⟨((Entry.handle (addressed r).entry r.method
          (r.headers.first? "content-type") r.body).run.run state.files).2, []⟩) := by
  have hplain : ∀ response : Response, challenged [] response = response := fun response => by
    rw [challenged, sendable, List.map_nil, List.filter_nil, List.map_nil, List.append_nil]
  rw [decided_eq, hplain, if_pos rfl, if_pos rfl, answer_response, answer_files, if_pos h.path, if_pos h.path,
    h.received]

end Ordinary

/-! ## The step -/

/-- The state holds these pages and nothing else. -/
structure Holds (root : Text) (m : Pages) (state : State) : Prop where
  sound : Store.Sound state.files
  root : state.files.root = root
  cache : state.cache = []
  bare : ∀ l, InConfig l → state.files.sight l = none
  proper : m.Proper
  stored : ∀ q, q.Canonical → content? state.files q = m.stored q

section Steps
variable {s : Server} {v : Service} {root : Text} {m : Pages} {state : State} {r : Request} {o : Occasion}

theorem holds_empty (root : Text) : Holds root (fun _ => none) ⟨FileTree.empty root, []⟩ := by
  refine ⟨Store.Sound.empty root, rfl, rfl, ?_, Pages.proper_empty, fun q _ => ?_⟩
  · rintro l ⟨a, -, hl⟩
    have hne : l ≠ [] := fun hnil => configFolder_ne_nil a (List.suffix_nil.mp (hnil ▸ hl))
    simp [sight, node?, FileTree.empty, hne]
  · rw [Store.content?_empty, Pages.stored]
    split
    · rfl
    · rfl

namespace Holds

/-- Nothing is configured, so everybody may do anything. -/
theorem authenticated (h : Holds root m state) (hr : Ordinary v.server root r) (o : Occasion) :
    v.verdict? r o state = some (⟨true, []⟩, []) := by
  rw [Service.verdict?, h.cache]
  exact Auth.authenticate_unconfigured v.server.authenticator h.sound o.now o.keys (addressed_canonical r)
    (fun a ha => h.bare _ ⟨a, (addressed_canonical r).ancestors a ha, List.suffix_rfl⟩) hr.namesFit (hr.rulesFit h.root)

theorem content_entry (h : Holds root m state) (hr : Ordinary s root r) :
    content? state.files (addressed r).entry = (m (addressed r).entry).map Page.content :=
  (h.stored _ (addressed_canonical r)).trans (Pages.stored_of_apart m hr.apart)

theorem hasData_entry (h : Holds root m state) (hr : Ordinary s root r) :
    Store.hasData state.files (addressed r).entry = (m (addressed r).entry).isSome := by
  rw [Bool.eq_iff_iff, h.sound.hasData_iff, h.content_entry hr, Option.isSome_iff_exists]
  cases m (addressed r).entry with
  | none => simp
  | some page => simp

theorem put_answered (h : Holds root m state) (hr : Ordinary s root r) (hput : r.method = "PUT".toList) :
    answerOf ((Entry.put (addressed r).entry (r.headers.first? "content-type") r.body).run.run state.files).1 =
      Response.empty (if (m (addressed r).entry).isSome then .noContent else .created) := by
  have hfits := hr.fits_changes h.root
  rw [changes, if_pos hput, putChanges, if_pos hr.complete] at hfits
  have hcontent : state.files.Fits (addressed r).entry.place.staging :=
    hfits (.replace _ r.body.chunks) (List.mem_cons_self ..)
  have hfields : state.files.Fits (headersOf (addressed r).entry).place.data :=
    hfits (.deleteAll _) (List.mem_cons_of_mem _ (List.mem_cons_self ..))
  have haccepted : ¬ (r.headers.first? "content-type" ≠ none ∧
      ¬ state.files.Fits (typeOf (addressed r).entry).place.staging) := by
    rintro ⟨hsome, hunfit⟩
    obtain ⟨value, hvalue⟩ := Option.ne_none_iff_exists'.mp hsome
    refine hunfit (hfits (.write _ value) (List.mem_cons_of_mem _ (List.mem_cons_of_mem _ ?_)))
    rw [hvalue]
    exact List.mem_singleton_self _
  obtain ⟨result, t', hrun, -, -, -, hanswer⟩ := Entry.run_put_spec h.sound (addressed_canonical r)
    (r.headers.first? "content-type") r.body
  rw [hrun, hanswer, Entry.putAnswer, if_neg (not_not_intro hcontent), if_neg (by rw [hr.complete]; decide),
    if_neg (not_not_intro hfields), if_neg haccepted, h.hasData_entry hr]

theorem delete_answered (h : Holds root m state) (hr : Ordinary s root r) :
    answerOf ((Entry.delete (addressed r).entry).run.run state.files).1 = Response.empty .noContent := by
  obtain ⟨t', hrun, -⟩ := Store.run_deleteAll_refines h.sound (addressed_canonical r) (hr.fits_data h.root)
  rw [Entry.run_delete, hrun]
  rfl

theorem answered (h : Holds root m state) (hr : Ordinary s root r) (headOnly : Bool) :
    (answerOf ((Entry.handle (addressed r).entry r.method (r.headers.first? "content-type")
      r.body).run.run state.files).1).completed headOnly =
    { m.answer r with body := if headOnly then [] else (m.answer r).body } := by
  rw [Entry.run_handle, Pages.answer]
  by_cases hput : r.method = "PUT".toList
  · rw [if_neg (by rw [hput]; decide), if_pos hput, h.put_answered hr hput]
    simp only [if_pos hput]
    cases m (addressed r).entry with
    | none => rfl
    | some page => cases headOnly <;> rfl
  · by_cases hdelete : r.method = "DELETE".toList
    · rw [if_neg (by rw [hdelete]; decide), if_neg hput, if_pos hdelete, h.delete_answered hr]
      simp only [if_neg hput, if_pos hdelete]
      cases headOnly <;> rfl
    · have hshow : r.method = "GET".toList ∨ r.method = "HEAD".toList := by
        rcases hr.method with hmethod | hmethod | hmethod | hmethod
        · exact absurd hmethod hput
        · exact Or.inl hmethod
        · exact Or.inr hmethod
        · exact absurd hmethod hdelete
      simp only [if_pos hshow, if_neg hput, if_neg hdelete]
      rw [← Pages.get_shown h.proper h.sound h.stored (addressed_canonical r) hr.apart (hr.fits_data h.root)]
      cases Entry.get state.files (addressed r).entry with
      | ok response => rfl
      | error failure => rfl

theorem changed (h : Holds root m state) (hr : Ordinary s root r) :
    Holds root (m.after r) ⟨((Entry.handle (addressed r).entry r.method (r.headers.first? "content-type")
      r.body).run.run state.files).2, []⟩ := by
  have hout : ∀ c ∈ changes (addressed r).entry r.method (r.headers.first? "content-type") r.body,
      c.entry.Canonical ∧ ∀ l, InConfig l → ¬ c.Writes l := fun c hc =>
    changes_outside (addressed_canonical r) hr.unsealed hc
  obtain ⟨t', hrun, hroot, ht', hcontents⟩ := Store.runAll_refines
    (changes (addressed r).entry r.method (r.headers.first? "content-type") r.body) h.sound
    (fun c hc => ⟨(hout c hc).1, hr.fits_changes h.root c hc⟩) h.stored
  have hfiles := Entry.handle_files (addressed r).entry r.method (r.headers.first? "content-type") r.body state.files
  rw [hrun] at hfiles
  rw [hfiles]
  refine ⟨ht', hroot.trans h.root, rfl, fun l hl => ?_, h.proper.after hr.apart hr.type, fun q hq => ?_⟩
  · have hnone := Store.sight_runAll_none h.sound (h.bare l hl) fun c hc => ⟨(hout c hc).1, (hout c hc).2 l hl⟩
    rwa [hrun] at hnone
  · rw [hcontents q hq, Pages.stored_after h.proper hr.apart (addressed_head r) hr.named hr.complete]

/-- A request that is done in time is answered from the pages, without challenges, and leaves those that it makes of
them. -/
theorem handle (h : Holds root m state) (hr : Ordinary v.server root r) (ho : v.InTime o) :
    ∃ after, v.handle r o state = some (m.reply r o.identifier, [], after) ∧ Holds root (m.after r) after := by
  refine ⟨_, ?_, h.changed hr⟩
  rw [Service.handle_decided hr.announced hr.unsealed ho (h.authenticated hr o), hr.decided]
  simp only [finished, h.answered hr]
  rw [Headers.addIfMissing, Pages.answer_without_id]
  simp only [Bool.false_eq_true, if_false, decide_eq_true_eq]
  rfl

end Holds

theorem holds_after {requests : List (Request × Occasion)} (h : Holds root m state)
    (hrequests : ∀ x ∈ requests, Ordinary v.server root x.1 ∧ v.InTime x.2) :
    ∃ after, v.after? state requests = some after ∧ Holds root ((requests.map Prod.fst).foldl Pages.after m) after := by
  induction requests generalizing m state with
  | nil => exact ⟨state, rfl, h⟩
  | cons x requests ih =>
    obtain ⟨hx, hrest⟩ := List.forall_mem_cons.mp hrequests
    obtain ⟨next, hnext, hholds⟩ := h.handle hx.1 hx.2
    obtain ⟨after, hafter, hholds⟩ := ih hholds hrest
    exact ⟨after, by rw [Service.after?, hnext]; exact hafter, hholds⟩

end Steps

/-! ## Any number of requests -/

/-- Whatever pages have been put and removed before, a request is authorized without a challenge and answered from the
map that the earlier requests have made of the empty one. -/
theorem pages_are_a_map (v : Service) {root : Text} {earlier : List (Request × Occasion)}
    (hearlier : ∀ x ∈ earlier, Ordinary v.server root x.1 ∧ v.InTime x.2) {r : Request}
    (hr : Ordinary v.server root r) {o : Occasion} (ho : v.InTime o) :
    let m := (earlier.map Prod.fst).foldl Pages.after fun _ => none
    ∃ state after, v.after? ⟨FileTree.empty root, []⟩ earlier = some state ∧
      v.verdict? r o state = some (⟨true, []⟩, []) ∧
      v.handle r o state = some (m.reply r o.identifier, [], after) := by
  obtain ⟨state, hstate, h⟩ := holds_after (holds_empty root) hearlier
  obtain ⟨after, hafter, -⟩ := h.handle hr ho
  exact ⟨state, after, hstate, h.authenticated hr o, hafter⟩

/-! ## A style sheet -/

def openService : Service := ⟨site, 30000⟩

/-- The work on a request takes a number of milliseconds. No keys can be drawn, and none are needed. -/
def lasting (takes : Nat) : Occasion := ⟨0, fun _ => none, [], takes, ⟨FileTree.empty "data/".toList, []⟩⟩

def requestFor (method target : String) (body : List Bytes) : Request :=
  ⟨method.toList, target.toList, [], ⟨body, true⟩⟩

/-- A style sheet with a part is put, and all parts are removed. -/
def sheetRequests : List (Request × Occasion) :=
  [(⟨"PUT".toList, "/page".toList, [("content-type".toList, Ascii.bytes "text/css")],
      ⟨[Ascii.bytes "p", Ascii.bytes "re"], true⟩⟩, lasting 20),
    (requestFor "PUT" "/page/part" [Ascii.bytes "new"], lasting 20),
    (requestFor "DELETE" "/page/" [], lasting 20)]

theorem pages_are_a_map_sheet :
    (∀ x ∈ sheetRequests, Ordinary site "data/".toList x.1 ∧ openService.InTime x.2) ∧
    Ordinary site "data/".toList (requestFor "GET" "/page" []) ∧
    Ordinary site "data/".toList (requestFor "GET" "/page/part" []) ∧ openService.InTime (lasting 20) ∧
    (∃ state after, openService.after? ⟨FileTree.empty "data/".toList, []⟩ sheetRequests = some state ∧
      openService.handle (requestFor "GET" "/page" []) (lasting 20) state =
        some (⟨.ok, [("content-type".toList, Ascii.bytes "text/css"), ("content-length".toList, Header.ofNat 3),
          ("x-request-id".toList, [])], Ascii.bytes "pre"⟩, [], after)) ∧
    ∃ state response after, openService.after? ⟨FileTree.empty "data/".toList, []⟩ sheetRequests = some state ∧
      openService.handle (requestFor "GET" "/page/part" []) (lasting 20) state = some (response, [], after) ∧
      response.status = .notFound := by
  have hearlier : ∀ x ∈ sheetRequests, Ordinary site "data/".toList x.1 ∧ openService.InTime x.2 := by decide +kernel
  have hpage : Ordinary site "data/".toList (requestFor "GET" "/page" []) := by decide +kernel
  have hpart : Ordinary site "data/".toList (requestFor "GET" "/page/part" []) := by decide +kernel
  have htime : openService.InTime (lasting 20) := by decide
  refine ⟨hearlier, hpage, hpart, htime, ?_, ?_⟩
  · obtain ⟨state, after, hstate, -, hrun⟩ := pages_are_a_map openService hearlier hpage htime
    have hreply : Pages.reply ((sheetRequests.map Prod.fst).foldl Pages.after fun _ => none)
        (requestFor "GET" "/page" []) [] = ⟨.ok, [("content-type".toList, Ascii.bytes "text/css"),
          ("content-length".toList, Header.ofNat 3), ("x-request-id".toList, [])], Ascii.bytes "pre"⟩ := by
      decide +kernel
    exact ⟨state, after, hstate, hrun.trans (by rw [lasting, hreply])⟩
  · obtain ⟨state, after, hstate, -, hrun⟩ := pages_are_a_map openService hearlier hpart htime
    refine ⟨state, _, after, hstate, hrun, ?_⟩
    decide +kernel

/-! ## Requests that are refused -/

/-- The status of the answer to a request on an empty store. -/
def firstStatus (r : Request) (takes : Nat) : Option Status :=
  (openService.handle r (lasting takes) ⟨FileTree.empty "data/".toList, []⟩).map fun x => x.1.status

def longPut : Request := ⟨"PUT".toList, '/' :: List.replicate 247 'n', [], ⟨[Ascii.bytes "new"], true⟩⟩

def deepPut : Request :=
  ⟨"PUT".toList, (List.replicate 17 ('/' :: List.replicate 240 'n')).flatten, [], ⟨[Ascii.bytes "new"], true⟩⟩

/-- A request that announces less than it brings. -/
def understatedPut : Request :=
  ⟨"PUT".toList, "/page".toList, [("content-length".toList, Ascii.bytes "1")], ⟨[Ascii.bytes "new"], true⟩⟩

/-- A name of 247 bytes leaves no room for the ending of a draft, and a way of many names is too long for a path even
where all names are short. No more is read of a content than is announced, and work that takes too long is cut off. -/
theorem pages_can_be_refused :
    (addressed longPut).entry = ⟨[.child (List.replicate 247 'n'), .child "host".toList]⟩ ∧
    (Pages.reply (fun _ => none) longPut []).status = .created ∧
    firstStatus longPut 20 = some .internalServerError ∧
    (addressed deepPut).entry = ⟨List.replicate 17 (.child (List.replicate 240 'n')) ++ [.child "host".toList]⟩ ∧
    (Pages.reply (fun _ => none) deepPut []).status = .created ∧
    firstStatus deepPut 20 = some .unauthorized ∧
    (Pages.reply (fun _ => none) understatedPut []).status = .created ∧
    firstStatus understatedPut 20 = some .badRequest ∧
    (Pages.reply (fun _ => none) (requestFor "PUT" "/page" [Ascii.bytes "new"]) []).status = .created ∧
    firstStatus (requestFor "PUT" "/page" [Ascii.bytes "new"]) 30001 = some .requestTimeout :=
  ⟨by decide +kernel, by decide +kernel, by decide +kernel, by decide +kernel, by decide +kernel, by decide +kernel,
    by decide +kernel, by decide +kernel, by decide +kernel, by decide +kernel⟩

end EntryServer.Http.Server
