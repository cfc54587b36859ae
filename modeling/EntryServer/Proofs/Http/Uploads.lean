import EntryServer.Proofs.Auth.Agreement
import EntryServer.Proofs.Http.Fields
import EntryServer.Proofs.Http.Seal
import EntryServer.Proofs.Http.Service

/-! # Uploads that do not end

A replacement whose content does not arrive to its end leaves a draft and directories behind. No later request can
tell, unless it uses a nonce that the upload has to do with, or addresses a name that is too long: this is refused
only where there is a directory to look it up in. -/
namespace EntryServer.Http
set_option autoImplicit false
open EntryPath FileTree Acl
open Store (Agree Change Written)
open Entry (headersOf typeOf putChanges)

/-! ## Access configurations -/

section Configs
variable {t t' : FileTree} {q : EntryPath}

theorem sameWay_of_agree (h : Agree InConfig t t') (hq : q.Canonical) : SameWay t t' q :=
  ⟨h.before, h.after, h.root, hq, fun a ha =>
    SameConfig.sameFolder fun l hl => h.sight l ⟨a, hq.ancestors a ha, hl⟩⟩

theorem sameChecks_of_agree (h : Agree InConfig t t') (hq : q.Canonical)
    (hnames : ∀ a ∈ q.ancestors, NamesFit (configFolder a)) (open_ : Text) : Auth.SameChecks open_ t t' q :=
  have hway := sameWay_of_agree h hq
  ⟨hway.listed open_, hway.domain, fun name => hway.secret name Auth.scheme, hway.permission hnames⟩

theorem configFolder_names (p : EntryPath) : configFolder p =
    "auth.dir".toList :: (p.place.stem ++ "metadir".toList) :: p.place.folder := by
  rw [configFolder_eq]
  simp only [placeOf, authHops, Place.facet, Place.children, place]
  simp [auth, Facet.ending, Facet.word]

theorem namesFit_data {p : EntryPath} (h : NamesFit (configFolder p)) : NamesFit p.place.data := by
  rw [configFolder_names] at h
  obtain ⟨-, h⟩ := List.forall_mem_cons.mp h
  obtain ⟨hdir, hfolder⟩ := List.forall_mem_cons.mp h
  refine List.forall_mem_cons.mpr ⟨Nat.le_trans ?_ hdir, hfolder⟩
  rw [Utf8.size_append, Utf8.size_append]
  exact Nat.add_le_add_left (by decide) _

theorem namesFit_fields {p : EntryPath} (h : NamesFit (configFolder p)) : NamesFit (headersOf p).place.data := by
  rw [configFolder_names] at h
  obtain ⟨-, h⟩ := List.forall_mem_cons.mp h
  rw [Entry.headersOf_data]
  exact List.forall_mem_cons.mpr ⟨by decide, List.forall_mem_cons.mpr ⟨by decide, h⟩⟩

theorem self_mem_ancestors (p : EntryPath) : p ∈ p.ancestors := by
  rw [EntryPath.ancestors]
  split
  · exact List.mem_singleton_self p
  · exact List.mem_cons_self ..

end Configs

/-! ## Handlers -/

section Handlers
variable {t t' : FileTree} {e : EntryPath}

theorem changes_settled (hnames : NamesFit (configFolder e)) {method : Text} {contentType : Option Bytes} {body : Body}
    {c : Change} (hc : c ∈ Entry.changes e method contentType body) : c.Settled := by
  rw [Entry.changes] at hc
  split at hc
  · rcases Entry.mem_putChanges hc with rfl | rfl | rfl | ⟨value, rfl⟩
    · trivial
    · trivial
    · exact namesFit_fields hnames
    · trivial
  · split at hc
    · obtain rfl := List.mem_singleton.mp hc
      exact namesFit_data hnames
    · cases hc

theorem handle_files_agree (h : Agree InConfig t t') (he : e.Canonical) (hsealed : isSealed e = false)
    (hnames : NamesFit (configFolder e)) (method : Text) (contentType : Option Bytes) (body : Body) :
    Agree InConfig ((Entry.handle e method contentType body).run.run t).2
      ((Entry.handle e method contentType body).run.run t').2 := by
  rw [Entry.handle_files, Entry.handle_files]
  refine h.runAll fun c hc => ?_
  obtain ⟨hcanonical, hout⟩ := changes_outside he hsealed hc
  exact ⟨hcanonical, changes_settled hnames hc, hout⟩

theorem put_answer_agree (h : Agree InConfig t t') (he : e.Canonical) (contentType : Option Bytes) (body : Body) :
    Entry.answerOf ((Entry.put e contentType body).run.run t').1 =
      Entry.answerOf ((Entry.put e contentType body).run.run t).1 := by
  obtain ⟨r, t₁, hrun, -, -, -, hanswer⟩ := Entry.run_put_spec h.before he contentType body
  obtain ⟨r', t₁', hrun', -, -, -, hanswer'⟩ := Entry.run_put_spec h.after he contentType body
  rw [hrun, hrun', hanswer, hanswer']
  simp only [Entry.putAnswer, h.fits_iff, h.hasData he]

theorem delete_answer_agree (h : Agree InConfig t t') (he : e.Canonical) (hnames : NamesFit e.place.data) :
    Entry.answerOf ((Entry.delete e).run.run t').1 = Entry.answerOf ((Entry.delete e).run.run t).1 := by
  obtain ⟨r, r', t₁, t₁', hrun, hrun', -, hr⟩ := h.change (c := .deleteAll e) he hnames fun _ _ hl => hl
  have hdelete : (Change.deleteAll e).run = Store.deleteAll e := rfl
  rw [hdelete] at hrun hrun'
  rw [Entry.run_delete, Entry.run_delete, hrun, hrun']
  rcases hr with ⟨rfl, rfl⟩ | ⟨f, f', rfl, rfl, hf, hf'⟩
  · rfl
  · exact (Entry.answerOf_store hf').trans (Entry.answerOf_store hf).symm

theorem get_agree (h : Agree InConfig t t') (he : e.Canonical) (hnames : NamesFit e.place.data) :
    Entry.get t' e = Entry.get t e := by
  rw [Entry.get, Entry.get, h.read he hnames, Entry.storedHeaders_congr h.before h.after he h.content]

theorem handle_answer_agree (h : Agree InConfig t t') (he : e.Canonical) (hnames : NamesFit e.place.data)
    (method : Text) (contentType : Option Bytes) (body : Body) :
    Entry.answerOf ((Entry.handle e method contentType body).run.run t').1 =
      Entry.answerOf ((Entry.handle e method contentType body).run.run t).1 := by
  rw [Entry.run_handle, Entry.run_handle, get_agree h he hnames]
  split
  · cases Entry.get t e with
    | ok response => rfl
    | error failure => rfl
  · split
    · exact put_answer_agree h he contentType body
    · split
      · exact delete_answer_agree h he hnames
      · rfl

/-- A replacement that does not end changes no content. -/
theorem put_incomplete (ht : Store.Sound t) (he : e.Canonical) (hsealed : isSealed e = false)
    (contentType : Option Bytes) {body : Body} (hfailed : body.complete = false) :
    Agree InConfig t ((Entry.put e contentType body).run.run t).2 := by
  have hchanges : putChanges e contentType body = [.abandon e body.chunks] := by
    rw [putChanges, hfailed]
    rfl
  have hagree := Agree.abandon ht he (fun l => not_written_of_config he (not_sealed_of_suffix hsealed)) body.chunks
  rw [Entry.put_files, hchanges, Store.run_runAll_cons]
  cases hrun : (Change.abandon e body.chunks).run.run.run t with
  | mk r t' =>
    rw [hrun] at hagree
    cases r with
    | ok u => exact hagree
    | error f => exact hagree

end Handlers

/-! ## Visits -/

namespace Server

/-- Two states that a client cannot tell apart from a time on, without some of the nonces. -/
structure Indistinct (start : Nat) (used : List Text) (state state' : State) : Prop where
  files : Agree InConfig state.files state'.files
  cache : Auth.Cache.SameFrom start used state.cache state'.cache

/-- A visit from a time on that names none of some nonces, on an entry with short names. -/
structure Unrelated (start : Nat) (used : List Text) (v : Visit) : Prop where
  later : start ≤ v.now
  nonces : ∀ c ∈ Auth.candidates (v.request.headers.all "authorization"), Auth.keyOf c ∉ used
  names : ∀ a ∈ (addressed v.request).entry.ancestors, NamesFit (configFolder a)

section Visits
variable {s : Server} {start : Nat} {used : List Text} {state state' : State} {v : Visit}

theorem answer_agree {t t' : FileTree} (h : Agree InConfig t t') {e : EntryPath} (he : e.Canonical)
    (hsealed : isSealed e = false) (hnames : NamesFit (configFolder e)) (target : Target) (r : Request) :
    (s.answer e target r t').1 = (s.answer e target r t).1 ∧
      Agree InConfig (s.answer e target r t).2 (s.answer e target r t').2 := by
  rw [answer_response, answer_response, answer_files, answer_files]
  split
  · exact ⟨handle_answer_agree h he (namesFit_data hnames) _ _ _, handle_files_agree h he hsealed hnames _ _ _⟩
  · exact ⟨rfl, h⟩

theorem guarded_indistinct (h : Indistinct start used state state') (hv : Unrelated start used v) :
    (s.guarded v.request v.now v.draw state').1 = (s.guarded v.request v.now v.draw state).1 ∧
      Indistinct start used (s.guarded v.request v.now v.draw state).2.2
        (s.guarded v.request v.now v.draw state').2.2 := by
  have he : (addressed v.request).entry.Canonical := Addressed.resolve_canonical _ _
  cases hsealed : isSealed (addressed v.request).entry with
  | true =>
    rw [guarded_sealed hsealed, guarded_sealed hsealed]
    exact ⟨rfl, h⟩
  | false =>
    have hchecks := sameChecks_of_agree h.files he hv.names s.authenticator.anonymous
    obtain ⟨hverdict, hcache⟩ := Auth.authenticate_congr (a := s.authenticator) v.draw
      (r := authRequest (addressed v.request) (Target.parse v.request.target) v.request) hchecks h.cache hv.later
      hv.nonces
    have hverdict : s.verdict v.request v.now v.draw state' = s.verdict v.request v.now v.draw state := hverdict
    obtain ⟨hanswer, hfiles⟩ := answer_agree (s := s) h.files he hsealed (hv.names _ (self_mem_ancestors _))
      (Target.parse v.request.target) v.request
    rw [guarded_unsealed hsealed, guarded_unsealed hsealed, hverdict, hanswer]
    refine ⟨rfl, ?_, hcache⟩
    simp only
    split
    · exact hfiles
    · exact h.files

theorem attend_indistinct (h : Indistinct start used state state') (hv : Unrelated start used v) :
    (s.attend state' v).1 = (s.attend state v).1 ∧
      Indistinct start used (s.attend state v).2.2 (s.attend state' v).2.2 := by
  obtain ⟨hresponse, hstate⟩ := guarded_indistinct (s := s) h hv
  refine ⟨serve_congr fun _ => hresponse, ?_⟩
  rw [attend, attend, serve_state, serve_state]
  split
  · exact h
  · exact hstate

theorem responses_indistinct (h : Indistinct start used state state') {later : List Visit}
    (hlater : ∀ v ∈ later, Unrelated start used v) :
    s.responses state' later = s.responses state later ∧
      Indistinct start used (s.after state later) (s.after state' later) := by
  induction later generalizing state state' with
  | nil => exact ⟨rfl, h⟩
  | cons v later ih =>
    obtain ⟨hv, hrest⟩ := List.forall_mem_cons.mp hlater
    obtain ⟨hresponse, hstate⟩ := attend_indistinct (s := s) h hv
    obtain ⟨hresponses, hafter⟩ := ih hstate hrest
    rw [responses, responses, hresponse, hresponses]
    exact ⟨rfl, hafter⟩

/-- The nonces that a visit has to do with: those that its request names and those that its answer offers. -/
def noncesOf (s : Server) (state : State) (v : Visit) : List Text :=
  (Auth.candidates (v.request.headers.all "authorization")).map Auth.keyOf ++
    (s.attend state v).2.1.map fun ch => ch.keys.nonce

theorem upload_indistinct (ht : Store.Sound state.files) (hput : v.request.method = "PUT".toList)
    (hfailed : (s.received v.request).complete = false) :
    Indistinct v.now (s.noncesOf state v) state (s.attend state v).2.2 := by
  have hsame : Indistinct v.now (s.noncesOf state v) state state := ⟨Agree.refl ht, rfl⟩
  rw [attend, serve_state]
  cases hsize : s.announcesTooMuch v.request with
  | true => exact hsame
  | false =>
    cases hsealed : isSealed (addressed v.request).entry with
    | true =>
      rw [guarded_sealed hsealed]
      exact hsame
    | false =>
      have hissued : (s.attend state v).2.1 = (s.verdict v.request v.now v.draw state).challenges := by
        rw [attend, serve_challenges, hsize, guarded_unsealed hsealed]
        rfl
      rw [guarded_unsealed hsealed]
      constructor
      · simp only [Bool.false_eq_true, if_false]
        split
        · rw [answer_files]
          split
          · rw [Entry.run_handle, hput, if_neg (by decide), if_pos rfl]
            exact put_incomplete ht (Addressed.resolve_canonical _ _) hsealed _ hfailed
          · exact Agree.refl ht
        · exact Agree.refl ht
      · refine Auth.authenticate_sameFrom (fun c hc => ?_) fun ch hch => ?_
        · exact List.mem_append_left _ (List.mem_map_of_mem hc)
        · rw [noncesOf, hissued]
          exact List.mem_append_right _ (List.mem_map.mpr ⟨ch, hch, rfl⟩)

end Visits

/-- An upload that does not arrive to its end changes no content and no stored field. Later requests that have nothing
to do with its nonces, on entries whose names are short enough, are all answered as if it had never been sent, and
the stored fields stay the same through them. None of them fails for the clock, if it can represent the ends of all
nonces. -/
theorem failed_upload_is_not_seen {root : Text} (s : Server) {state : State} (hbuilt : Store.Built root state.files)
    {v : Visit} (hput : v.request.method = "PUT".toList)
    (hfailed : (s.received v.request).complete = false) {state' : State}
    (hrun : state' = (s.attend state v).2.2) :
    (∀ q, Reachable q → Store.hasData state'.files q = Store.hasData state.files q ∧
      (∀ content, Store.read state'.files q = .ok content ↔ Store.read state.files q = .ok content) ∧
      (NamesFit q.place.data → Store.read state'.files q = Store.read state.files q) ∧
      Entry.storedHeaders state'.files q = Entry.storedHeaders state.files q) ∧
    ∀ later, (∀ w ∈ later, Unrelated v.now (s.noncesOf state v) w) →
      s.responses state' later = s.responses state later ∧
      (∀ q, Reachable q → Entry.storedHeaders (s.after state' later).files q =
        Entry.storedHeaders (s.after state later).files q) ∧
      ∀ timeout requests, List.Forall₂ (Service.Carries ⟨s, timeout⟩) later requests →
        state.cache.fitsClock = true →
        (∀ w ∈ v :: later, w.now + s.authenticator.validity < Auth.Cache.clockLimit) →
        Service.responses? ⟨s, timeout⟩ state' requests = some (s.responses state later) ∧
          Service.responses? ⟨s, timeout⟩ state requests = some (s.responses state later) := by
  have h := upload_indistinct hbuilt.sound.1 hput hfailed
  rw [← hrun] at h
  have hfields : ∀ {state state' : State}, Agree InConfig state.files state'.files → ∀ q, Reachable q →
      Entry.storedHeaders state'.files q = Entry.storedHeaders state.files q := fun h q hq =>
    Entry.storedHeaders_congr h.before h.after hq.canonical h.content
  refine ⟨fun q hq => ⟨h.files.hasData hq.canonical, h.files.read_ok hq.canonical, h.files.read hq.canonical,
    hfields h.files q hq⟩, fun later hlater => ?_⟩
  obtain ⟨hresponses, hafter⟩ := responses_indistinct h hlater
  refine ⟨hresponses, hfields hafter.files, fun timeout requests hcarried hclock hlimit => ?_⟩
  obtain ⟨hv, hrest⟩ := List.forall_mem_cons.mp hlimit
  have hclock' : state'.cache.fitsClock = true := hrun ▸ Service.fitsClock_attend hclock hv
  refine ⟨?_, Service.responses?_eq hcarried hclock hrest⟩
  rw [← hresponses]
  exact Service.responses?_eq hcarried hclock' hrest

/-! ## A page that is not replaced -/

/-- A page with a content that has a type. -/
def typedPage : State :=
  ⟨[(visitedPage, "old"), (typeOf visitedPage, "text/css")].foldl
    (fun t kv => ((Store.write kv.1 (Ascii.bytes kv.2)).run.run t).2) (FileTree.empty "data/".toList), []⟩

def visitAt (method : String) (target : Text) (body : Body) : Visit :=
  ⟨⟨method.toList, target, [], body⟩, 0, fun _ => ⟨[], []⟩, []⟩

/-- An upload of which only the beginning arrives. -/
def halfUpload (target : String) : Visit := visitAt "PUT" target.toList ⟨[Ascii.bytes "ne"], false⟩

/-- The page is shown, replaced and removed. -/
def pageVisits : List Visit :=
  [visitAt "GET" "/page".toList ⟨[], true⟩, visitAt "PUT" "/page".toList ⟨[Ascii.bytes "new"], true⟩,
    visitAt "DELETE" "/".toList ⟨[], true⟩]

/-- The visits as they come in, each of them done in some milliseconds. -/
def pageRequests : List (Request × Occasion) :=
  pageVisits.map fun w => (w.request, ⟨w.now, fun i => some (w.draw i), w.identifier, 20, typedPage⟩)

theorem failed_upload_is_not_seen_page :
    Store.Built "data/".toList typedPage.files ∧ (halfUpload "/page").request.method = "PUT".toList ∧
    (site.received (halfUpload "/page").request).complete = false ∧
    ∃ state', state' = (site.attend typedPage (halfUpload "/page")).2.2 ∧
      Store.read state'.files visitedPage = .ok (Ascii.bytes "old") ∧
      site.responses state' pageVisits = site.responses typedPage pageVisits ∧
      Service.responses? ⟨site, 30000⟩ state' pageRequests = some (site.responses typedPage pageVisits) := by
  have hpage : Reachable visitedPage := reachable_iff_canonical.mpr (by decide)
  have hbuilt : Store.Built "data/".toList typedPage.files :=
    (Store.Built.empty.write hpage _).write (reachable_iff_canonical.mpr (by decide)) _
  have hput : (halfUpload "/page").request.method = "PUT".toList := rfl
  have hfailed : (site.received (halfUpload "/page").request).complete = false := by decide
  refine ⟨hbuilt, hput, hfailed, _, rfl, ?_⟩
  obtain ⟨hstore, hlater⟩ := failed_upload_is_not_seen site hbuilt hput hfailed rfl
  have hread : Store.read typedPage.files visitedPage = .ok (Ascii.bytes "old") := by decide +kernel
  have hnames : ∀ w ∈ pageVisits, ∀ a ∈ (addressed w.request).entry.ancestors, NamesFit (configFolder a) := by
    decide +kernel
  have hplain : ∀ w ∈ pageVisits, Auth.candidates (w.request.headers.all "authorization") = [] := by decide
  have hunrelated : ∀ w ∈ pageVisits, Unrelated 0 (site.noncesOf typedPage (halfUpload "/page")) w := by
    refine fun w hw => ⟨Nat.zero_le _, fun c hc => ?_, hnames w hw⟩
    rw [hplain w hw] at hc
    cases hc
  obtain ⟨hresponses, -, hanswered⟩ := hlater pageVisits hunrelated
  have hcarried : List.Forall₂ (Service.Carries ⟨site, 30000⟩) pageVisits pageRequests := by
    refine List.forall₂_map_right_iff.mpr (List.forall₂_same.mpr fun w _ => ⟨rfl, rfl, rfl, rfl, ?_⟩)
    exact (by decide : 20 ≤ 30000)
  have hlimit : ∀ w ∈ halfUpload "/page" :: pageVisits,
      w.now + site.authenticator.validity < Auth.Cache.clockLimit := by decide
  exact ⟨((hstore visitedPage hpage).2.1 _).mpr hread, hresponses, (hanswered 30000 pageRequests hcarried rfl hlimit).1⟩

/-- A name below `/d` that is too long for a file. -/
def longVisit : Visit := visitAt "GET" ("/d/".toList ++ List.replicate 252 'l') ⟨[], true⟩

/-- The directory that a failed upload leaves behind can be told by a name that is too long: it is not missing any
more, and a rule that cannot be read denies access. -/
theorem failed_upload_can_be_seen :
    Store.Built "data/".toList (FileTree.empty "data/".toList) ∧
    (site.verdict (halfUpload "/d/x").request 0 (fun _ => ⟨[], []⟩) ⟨FileTree.empty "data/".toList, []⟩).authorized ∧
    (site.received (halfUpload "/d/x").request).complete = false ∧
    (site.responses ⟨FileTree.empty "data/".toList, []⟩ [longVisit]).map (·.status) = [.notFound] ∧
    (site.responses (site.attend ⟨FileTree.empty "data/".toList, []⟩ (halfUpload "/d/x")).2.2
      [longVisit]).map (·.status) = [.unauthorized] :=
  ⟨.empty, by decide +kernel, by decide +kernel, by decide +kernel, by decide +kernel⟩

end Server

end EntryServer.Http
