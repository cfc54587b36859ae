import EntryServer.Proofs.Auth.Client
import EntryServer.Proofs.Http.Deletion
import EntryServer.Proofs.Http.Noninterference
import EntryServer.Proofs.Http.Service

/-! # Challenges on the wire

Every listed domain is challenged by a field of the answer, in the order of the listing, and a client reads in it
what the cache remembers. A field holds no control characters, so a domain whose realm or path has one goes
unchallenged, though its nonce is remembered. -/
namespace EntryServer.Auth
set_option autoImplicit false

/-! ## Texts that a field can hold -/

/-- A text without control characters other than tab. -/
def Plain (t : Text) : Prop := ∀ c ∈ t, (32 ≤ c.toNat ∧ c.toNat ≠ 127) ∨ c.toNat = 9

instance (t : Text) : Decidable (Plain t) := List.decidableBAll _ t

theorem plain_append {s t : Text} : Plain (s ++ t) ↔ Plain s ∧ Plain t := List.forall_mem_append

theorem plain_escape {t : Text} : Plain (escape t) ↔ Plain t := by
  constructor
  · intro h c hc
    refine h c (List.mem_flatMap.mpr ⟨c, hc, ?_⟩)
    split
    · exact List.mem_cons_of_mem _ (List.mem_cons_self ..)
    · exact List.mem_cons_self ..
  · intro h x hx
    obtain ⟨c, hc, hx⟩ := List.mem_flatMap.mp hx
    split at hx
    · rcases List.mem_cons.mp hx with rfl | hx
      · decide
      · exact List.mem_singleton.mp hx ▸ h c hc
    · exact List.mem_singleton.mp hx ▸ h c hc

theorem plain_quotedParam {key : String} (hkey : Plain key.toList) {value : Text} :
    Plain (quotedParam key value) ↔ Plain value := by
  have hopen : Plain "=\"".toList := by decide
  have hclose : Plain ['"'] := by decide
  simp only [quotedParam, plain_append, hkey, hopen, hclose, true_and, and_true]

theorem plain_intercalate {ts : List Text} : Plain (List.intercalate ", ".toList ts) ↔ ∀ t ∈ ts, Plain t := by
  have hcomma : Plain ", ".toList := by decide
  induction ts with
  | nil => exact iff_of_true (fun c hc => nomatch hc) (fun t ht => nomatch ht)
  | cons t ts ih =>
    cases ts with
    | nil => rw [List.intercalate_singleton, List.forall_mem_singleton]
    | cons next ts =>
      simp only [List.intercalate_cons_cons, plain_append, ih, hcomma, and_true, List.forall_mem_cons]

theorem plain_of_inRange {t : Text} (h : ∀ c ∈ t, Base64.InRange c) : Plain t := by
  intro c hc
  obtain ⟨hlow, hhigh, -⟩ := h c hc
  exact Or.inl ⟨by omega, by omega⟩

/-- Of a challenge, the realm and the path decide whether a field can hold it. -/
theorem plain_text {ch : Challenge} {nonce echo : Bytes} (hkeys : ch.keys = .ofBytes nonce echo) :
    Plain ch.text ↔ Plain ch.realm ∧ Plain ch.path := by
  have hnonce : Plain ch.keys.nonce := by
    rw [hkeys]
    exact plain_of_inRange fun c hc => Base64.inRange_of_mem hc
  have hecho : Plain ch.keys.echo := by
    rw [hkeys]
    exact plain_of_inRange fun c hc => Base64.inRange_of_mem hc
  have hscheme : Plain "Digest ".toList := by decide
  have hrealm : Plain "realm".toList := by decide
  have hdomain : Plain "domain".toList := by decide
  have hparam : ∀ key : String, Plain key.toList → ∀ value, Plain value → Plain (quotedParam key value) :=
    fun key hkey value hvalue => (plain_quotedParam hkey).mpr hvalue
  have hstale : ∀ p ∈ (if ch.stale then [quotedParam "stale" "true".toList] else []), Plain p := by
    cases ch.stale with
    | true => exact List.forall_mem_singleton.mpr (hparam _ (by decide) _ (by decide))
    | false => exact fun p hp => nomatch hp
  have hlast : ∀ p ∈ [quotedParam "algorithm" "MD5".toList, quotedParam "qop" "auth".toList], Plain p :=
    List.forall_mem_cons.mpr ⟨hparam _ (by decide) _ (by decide),
      List.forall_mem_singleton.mpr (hparam _ (by decide) _ (by decide))⟩
  have hfirst : (∀ p ∈ [quotedParam "realm" (escape ch.realm), quotedParam "domain" (escape ch.path),
      quotedParam "nonce" ch.keys.nonce, quotedParam "opaque" ch.keys.echo], Plain p) ↔
      Plain ch.realm ∧ Plain ch.path := by
    rw [List.forall_mem_cons, List.forall_mem_cons]
    constructor
    · rintro ⟨h, h', -⟩
      exact ⟨plain_escape.mp ((plain_quotedParam hrealm).mp h), plain_escape.mp ((plain_quotedParam hdomain).mp h')⟩
    · rintro ⟨h, h'⟩
      exact ⟨hparam _ hrealm _ (plain_escape.mpr h), hparam _ hdomain _ (plain_escape.mpr h'),
        List.forall_mem_cons.mpr ⟨hparam _ (by decide) _ hnonce,
          List.forall_mem_singleton.mpr (hparam _ (by decide) _ hecho)⟩⟩
  have hparams : (∀ p ∈ ch.params, Plain p) ↔ Plain ch.realm ∧ Plain ch.path := by
    rw [Challenge.params, List.forall_mem_append, List.forall_mem_append]
    exact ⟨fun h => hfirst.mp h.1.1, fun h => ⟨⟨hfirst.mpr h, hstale⟩, hlast⟩⟩
  exact plain_append.trans ((and_iff_right hscheme).trans (plain_intercalate.trans hparams))

/-- The values of fields are the plain texts. -/
theorem isValue_encode_iff {t : Text} : Http.Header.isValue (Utf8.encode t) = true ↔ Plain t := by
  have hchar : ∀ c : Char, (Utf8.encodeChar c).all (fun b => (32 ≤ b && b ≠ 127) || b = 9) = true ↔
      (32 ≤ c.toNat ∧ c.toNat ≠ 127) ∨ c.toNat = 9 := by
    intro c
    by_cases hc : c.toNat < 0x80
    · have hbyte : c.toNat.toUInt8.toNat = c.toNat := Utf8.toNat_toUInt8 (by omega)
      simp only [Utf8.encodeChar_ascii hc, List.all_cons, List.all_nil, Bool.and_true, Bool.or_eq_true,
        Bool.and_eq_true, decide_eq_true_eq, UInt8.le_iff_toNat_le, ne_eq, ← UInt8.toNat_inj, hbyte]
      exact Iff.rfl
    · refine iff_of_true (List.all_eq_true.mpr fun b hb => ?_) (Or.inl ⟨by omega, by omega⟩)
      have hhigh := Utf8.high_of_mem_encodeChar (Nat.not_lt.mp hc) hb
      have hlow : (32 : UInt8) ≤ b := UInt8.le_iff_toNat_le.mpr (Nat.le_trans (by decide) hhigh)
      have hne : b ≠ 127 := by
        rintro rfl
        exact absurd hhigh (by decide)
      simp [hlow, hne]
  rw [Http.Header.isValue, Utf8.encode, List.all_flatMap, List.all_eq_true]
  exact forall₂_congr fun c _ => hchar c

/-! ## Issued challenges -/

/-- A challenge shows the realm and the path of its domain, and the cache remembers it. -/
structure Issued (a : Authenticator) (t : FileTree) (r : Request) (now : Nat) (cache : Cache) (name : Text)
    (ch : Challenge) : Prop where
  realm : ch.realm = (Acl.domain t r.entry name).realm
  path : ch.path = ((Acl.domain t r.entry name).scope.bind (·.urlPathUnder r.site)).getD ['/']
  keys : ∃ nonce echo : Bytes, ch.keys = .ofBytes nonce echo
  cached : remembered a now (name, ch) ∈ cache

/-- Every listed domain that keys are drawn for is challenged, in the order of the listing. -/
theorem issued_authenticate (a : Authenticator) (t : FileTree) (r : Request) (now : Nat) (keys : Nat → Option Keys)
    (cache : Cache) (hdrawn : ∀ i pair, keys i = some pair → ∃ nonce echo : Bytes, pair = .ofBytes nonce echo)
    (hdistinct : ((drawnFor keys 0 (Acl.domains t a.anonymous r.entry).1).map fun x => x.2.nonce).Nodup) :
    List.Forall₂ (Issued a t r now (authenticateDrawn a t r now keys cache).2)
      ((drawnFor keys 0 (Acl.domains t a.anonymous r.entry).1).map Prod.fst)
      (authenticateDrawn a t r now keys cache).1.challenges := by
  rw [authenticateDrawn_eq, issueDrawn_challenges, issueDrawn_cache, List.forall₂_map_left_iff,
    List.forall₂_map_right_iff, List.forall₂_same]
  intro x hx
  obtain ⟨-, i, hi⟩ := drawn_of_mem hx
  refine ⟨rfl, rfl, hdrawn i _ hi, Cache.mem_insertAll ?_ (Or.inl ?_)⟩
  · rw [List.map_map]
    exact hdistinct
  · exact List.mem_map.mpr ⟨x, hx, rfl⟩

end EntryServer.Auth

namespace EntryServer.Http
open Auth (Plain Challenge)
open Entry (storedHeaders answerOf)

/-! ## The fields of an answer -/

namespace Headers

theorem all_append (hs hs' : Headers) (name : String) :
    Headers.all (hs ++ hs') name = hs.all name ++ Headers.all hs' name := by
  simp only [all, List.filter_append, List.map_append]

theorem all_addIfMissing {name other : String} (h : other.toList ≠ name.toList) (hs : Headers) (value : Bytes) :
    (hs.addIfMissing other value).all name = hs.all name := by
  rw [addIfMissing]
  split
  · rfl
  · rw [all_append]
    simp [all, h]

end Headers

/-- The fields of an answer that challenge. -/
def Response.challenges (r : Response) : List Bytes := r.headers.all "www-authenticate"

namespace Entry
variable {t : FileTree} {p : EntryPath} {contentType : Option Bytes} {body : Body}

theorem ok_of_put {x : Response} (h : ((put p contentType body).run.run t).1 = .ok x) :
    x = Response.empty (if Store.hasData t p then .noContent else .created) := by
  rw [run_put] at h
  split at h
  · cases h
  · split at h
    · cases h
    · split at h
      · cases h
      · split at h
        · cases h
        · split at h
          · cases h
          · exact (Except.ok.inj h).symm

/-- The challenges that a handler answers with are stored ones, and only a content comes with them. -/
def Shown (t : FileTree) (p : EntryPath) (a : Response) : Prop :=
  a.challenges = if a.status = .ok then (storedHeaders t p).all "www-authenticate" else []

theorem shown_empty {status : Status} (h : status ≠ .ok) : Shown t p (Response.empty status) := by
  rw [Shown, Response.empty, if_neg h]
  rfl

theorem shown_failure (f : Failure) : Shown t p f.response := by
  have hstatus : f.status ≠ .ok := by
    cases f with
    | store e =>
      rw [Failure.status]
      split <;> decide
    | body => decide
  have hresponse : f.response.status = f.status := rfl
  rw [Shown, hresponse, if_neg hstatus, Response.challenges, Failure.response, Response.text, Headers.all,
    List.filter_cons_of_neg (by decide)]
  rfl

theorem shown_get {a : Response} (h : get t p = .ok a) : Shown t p a := by
  rw [get] at h
  split at h
  · cases h
  · obtain rfl := Except.ok.inj h
    rw [Shown, Response.challenges, if_pos rfl, Headers.all_append, Headers.all_addIfMissing (by decide)]
    exact List.append_nil _

theorem shown_handle (method : Text) :
    Shown t p (answerOf ((handle p method contentType body).run.run t).1) := by
  have hanswer : ∀ {r : Except Failure Response}, (∀ a, r = .ok a → Shown t p a) → Shown t p (answerOf r) := by
    intro r h
    cases r with
    | ok a => exact h a rfl
    | error f => exact shown_failure f
  refine hanswer fun a ha => ?_
  rw [run_handle] at ha
  split at ha
  · cases hget : get t p with
    | ok b =>
      rw [hget] at ha
      obtain rfl := Except.ok.inj ha
      exact shown_get hget
    | error f =>
      rw [hget] at ha
      cases ha
  · split at ha
    · rw [ok_of_put ha]
      refine shown_empty ?_
      split <;> decide
    · split at ha
      · rw [run_delete] at ha
        split at ha
        · obtain rfl := Except.ok.inj ha
          exact shown_empty (by decide)
        · cases ha
      · obtain rfl := Except.ok.inj ha
        exact shown_empty (by decide)

end Entry

namespace Server
variable {s : Server} {r : Request} {now : Nat} {draw : Nat → Auth.Keys} {identifier : Bytes} {state : State}

theorem challenges_challenged (issued : List Challenge) (a : Response) :
    (challenged issued a).challenges = a.challenges ++ sendable issued := by
  have hsent : Headers.all ((sendable issued).map fun v => ("www-authenticate".toList, v)) "www-authenticate" =
      sendable issued := by
    rw [Headers.all, List.filter_eq_self.mpr, List.map_map]
    · exact List.map_id _
    · intro h hh
      obtain ⟨v, -, rfl⟩ := List.mem_map.mp hh
      exact decide_eq_true rfl
  rw [Response.challenges, challenged, Headers.all_append, hsent]
  rfl

theorem challenges_finished (identifier : Bytes) (a : Response) :
    (finished r identifier a).challenges = a.challenges := by
  rw [Response.challenges, finished, Headers.all_addIfMissing (by decide), Response.completed]
  split
  · rfl
  · exact Headers.all_addIfMissing (by decide) ..

/-- A request that reaches the authenticator is answered with the stored challenges that come with a content, and
with the issued ones that can be sent. -/
theorem challenges_decided (s : Server) (r : Request) (state : State) (decision : Auth.Verdict × Auth.Cache) :
    (s.decided (addressed r) (Target.parse r.target) r state decision).1.challenges =
      (if (s.decided (addressed r) (Target.parse r.target) r state decision).1.status = .ok then
          (storedHeaders state.files (addressed r).entry).all "www-authenticate" else []) ++
        sendable decision.1.challenges := by
  rw [decided_eq, challenges_challenged]
  congr 1
  cases decision.1.authorized with
  | true =>
    rw [if_pos rfl, challenged, answer_response]
    split
    · exact Entry.shown_handle _
    · exact Entry.shown_empty (by decide)
  | false => exact Entry.shown_empty (by decide)

/-! ## Listed domains -/

/-- The path that a domain is good for, as the clients of a site write it. -/
def scopePath (t : FileTree) (found : Addressed) (name : Text) : Text :=
  ((Acl.domain t found.entry name).scope.bind (·.urlPathUnder found.site)).getD ['/']

/-- Can a field hold the challenge of a domain? -/
def Challengeable (t : FileTree) (found : Addressed) (name : Text) : Prop :=
  Plain (Acl.domain t found.entry name).realm ∧ Plain (scopePath t found name)

instance (t : FileTree) (found : Addressed) (name : Text) : Decidable (Challengeable t found name) :=
  inferInstanceAs (Decidable (_ ∧ _))

/-- A field asks for credentials in a domain: a client reads one group in it, with the realm and the path of the
domain and a nonce that the cache remembers for that domain and realm. -/
def Asks (cache : Auth.Cache) (name realm path : Text) (value : Bytes) : Prop :=
  ∃ (c : Credentials) (key : Text) (n : Auth.Nonce), Credentials.parse value = .ok [c] ∧
    c.scheme = "Digest".toList ∧ c.param? "realm".toList = some n.realm ∧ c.param? "domain".toList = some path ∧
    c.param? "nonce".toList = some key ∧ c.param? "opaque".toList = some n.echo ∧ (key, n) ∈ cache ∧
    n.domain = name ∧ n.realm = realm

theorem forall₂_sendable {R : Text → Bytes → Prop} {P : Text → Prop} [DecidablePred P] {names : List Text}
    {issued : List Challenge} (h : List.Forall₂ (fun name ch => (Plain ch.text ↔ P name) ∧
      R name (Utf8.encode ch.text)) names issued) : List.Forall₂ R (names.filter P) (sendable issued) := by
  induction h with
  | nil => exact .nil
  | @cons name ch names issued hhead _ ih =>
    obtain ⟨hplain, hasks⟩ := hhead
    rw [sendable, List.map_cons, List.filter_cons, List.filter_cons]
    by_cases hname : P name
    · rw [if_pos (decide_eq_true hname), if_pos (Auth.isValue_encode_iff.mpr (hplain.mpr hname))]
      exact .cons hasks ih
    · rw [if_neg (by simpa using hname), if_neg fun h => hname (hplain.mp (Auth.isValue_encode_iff.mp h))]
      exact ih

/-- What is issued asks for credentials in its domain. -/
theorem asks_of_issued {a : Auth.Authenticator} {t : FileTree} {q : Auth.Request} {cache : Auth.Cache} {name : Text}
    {ch : Challenge} (h : Auth.Issued a t q now cache name ch) :
    Asks cache name (Acl.domain t q.entry name).realm (scopePath t ⟨q.site, q.entry⟩ name)
      (Utf8.encode ch.text) := by
  obtain ⟨hrealm, hpath, ⟨nonce, echo, hkeys⟩, hcached⟩ := h
  obtain ⟨hparamRealm, hparamNonce, hparamEcho, -⟩ := Auth.params_of_challenge ch
  have hparamPath : ch.credentials.param? "domain".toList = some ch.path := rfl
  exact ⟨ch.credentials, ch.keys.nonce, _, Auth.parse_challenge hkeys, rfl, hparamRealm,
    hparamPath.trans (congrArg some hpath), hparamNonce, hparamEcho, hcached, rfl, hrealm⟩

/-- Of the listed domains that keys are drawn for, those whose realm and path have no control characters are challenged,
each one by one field and in the order of the listing, and the fields of a stored content stand before these. A request
that is cut off is answered without a challenge. -/
theorem listed_domains_are_challenged (v : Service) (r : Request) (o : Occasion) (state : State)
    (hsize : v.server.announcesTooMuch r = false) (hsealed : Acl.isSealed (addressed r).entry = false)
    (hclock : state.cache.fitsClock = true)
    (hdrawn : ∀ i pair, o.keys i = some pair → ∃ nonce echo : Bytes, pair = .ofBytes nonce echo)
    (hdistinct : ((Auth.drawnFor o.keys 0 (Acl.domains state.files v.server.authenticator.anonymous
      (addressed r).entry).1).map fun x => x.2.nonce).Nodup) :
    ∃ response issued after, v.handle r o state = some (response, issued, after) ∧
      (v.InTime o → ∃ asked, response.headers.all "www-authenticate" =
          (if response.status = .ok then
            (storedHeaders state.files (addressed r).entry).all "www-authenticate" else []) ++ asked ∧
        List.Forall₂ (fun name value => Asks after.cache name (Acl.domain state.files (addressed r).entry name).realm
            (scopePath state.files (addressed r) name) value)
          (((Auth.drawnFor o.keys 0 (Acl.domains state.files v.server.authenticator.anonymous
            (addressed r).entry).1).map Prod.fst).filter (Challengeable state.files (addressed r))) asked) ∧
      (¬ v.InTime o → response.status = .requestTimeout ∧ response.headers.all "www-authenticate" = []) := by
  by_cases htime : v.InTime o
  · have hverdict : v.verdict? r o state = some _ := Auth.authenticateDrawn?_of_fits hclock
    refine ⟨_, _, _, Service.handle_decided hsize hsealed htime hverdict, fun _ => ?_, fun hlate => absurd htime hlate⟩
    refine ⟨_, (challenges_finished ..).trans (challenges_decided ..), forall₂_sendable ?_⟩
    refine (Auth.issued_authenticate v.server.authenticator state.files
      (authRequest (addressed r) (Target.parse r.target) r) o.now o.keys state.cache hdrawn hdistinct).imp
      fun name ch hissued => ⟨?_, ?_⟩
    · obtain ⟨hrealm, hpath, ⟨nonce, echo, hkeys⟩, -⟩ := hissued
      rw [Auth.plain_text hkeys, hrealm, hpath]
      exact Iff.rfl
    · exact asks_of_issued hissued
  · exact ⟨_, _, _, Service.handle_late hsize htime, fun h => absurd h htime, fun _ =>
      ⟨rfl, challenges_finished o.identifier (Response.empty .requestTimeout)⟩⟩

/-! ## A page with two domains -/

/-- A page with a stored challenge on a host with two domains, open to everybody. -/
def twoRealms : State :=
  ⟨[((Acl.scopeOf (Addressed.siteOf none) "admin".toList).child Acl.realmKey, "\"A\""),
    ((Acl.scopeOf (Addressed.siteOf none) "guest".toList).child Acl.realmKey, "Area\n\n"),
    ((Acl.scopeOf (Addressed.siteOf none) Acl.anonymous).child "GET.perm".toList, "allow"),
    ((Entry.headersOf visitedPage).child "www-authenticate".toList, "Basic")].foldl
      (fun t kv => ((Store.write kv.1 (Ascii.bytes kv.2)).run.run t).2)
      ((Store.write visitedPage (Ascii.bytes "content")).run.run (FileTree.empty "data/".toList)).2, []⟩

def pageRequest : Request := ⟨"GET".toList, "/page".toList, [], ⟨[], true⟩⟩

def timedSite : Service := ⟨site, 30000⟩

/-- Keys that are different for each challenge. -/
def countedKeys (i : Nat) : Option Auth.Keys := some (.ofBytes [i.toUInt8] [i.toUInt8])

/-- The work on a request takes a number of milliseconds and leaves the store as it is. -/
def taking (takes : Nat) (keys : Nat → Option Auth.Keys) : Occasion := ⟨0, keys, [], takes, twoRealms⟩

/-- The page is shown with its own challenge, and with that for the realm without line ending. -/
theorem listed_domains_are_challenged_page :
    site.announcesTooMuch pageRequest = false ∧ Acl.isSealed (addressed pageRequest).entry = false ∧
    twoRealms.cache.fitsClock = true ∧ timedSite.InTime (taking 20 countedKeys) ∧
    ((Auth.drawnFor countedKeys 0 (Acl.domains twoRealms.files Acl.anonymous (addressed pageRequest).entry).1).map
      fun x => x.2.nonce).Nodup ∧
    ∃ response issued after, timedSite.handle pageRequest (taking 20 countedKeys) twoRealms =
        some (response, issued, after) ∧
      ∃ value, response.headers.all "www-authenticate" = [Ascii.bytes "Basic", value] ∧
        Asks after.cache "admin".toList "\"A\"".toList "/".toList value := by
  have hsize : site.announcesTooMuch pageRequest = false := by decide +kernel
  have hsealed : Acl.isSealed (addressed pageRequest).entry = false := by decide +kernel
  have htime : timedSite.InTime (taking 20 countedKeys) := by decide
  have hdistinct : ((Auth.drawnFor countedKeys 0 (Acl.domains twoRealms.files Acl.anonymous
      (addressed pageRequest).entry).1).map fun x => x.2.nonce).Nodup := by decide +kernel
  obtain ⟨response, issued, after, hrun, hasked, -⟩ := listed_domains_are_challenged timedSite pageRequest
    (taking 20 countedKeys) twoRealms hsize hsealed rfl (fun i pair h => ⟨_, _, (Option.some.inj h).symm⟩) hdistinct
  obtain ⟨asked, hfields, hasked⟩ := hasked htime
  refine ⟨hsize, hsealed, rfl, htime, hdistinct, response, issued, after, hrun, ?_⟩
  have hstatus : (timedSite.handle pageRequest (taking 20 countedKeys) twoRealms).map (·.1.status) = some .ok := by
    decide +kernel
  have hok : response.status = .ok := by
    rw [hrun] at hstatus
    exact Option.some.inj hstatus
  have hnames : ((Auth.drawnFor countedKeys 0 (Acl.domains twoRealms.files Acl.anonymous
      (addressed pageRequest).entry).1).map Prod.fst).filter (Challengeable twoRealms.files (addressed pageRequest)) =
      ["admin".toList] := by decide +kernel
  have hstored : (storedHeaders twoRealms.files (addressed pageRequest).entry).all "www-authenticate" =
      [Ascii.bytes "Basic"] := by decide +kernel
  have hrealm : (Acl.domain twoRealms.files (addressed pageRequest).entry "admin".toList).realm = "\"A\"".toList := by
    decide +kernel
  have hpath : scopePath twoRealms.files (addressed pageRequest) "admin".toList = "/".toList := by decide +kernel
  have hasked : List.Forall₂ _ ["admin".toList] asked := hnames ▸ hasked
  rw [if_pos hok, hstored] at hfields
  cases hasked with
  | cons hvalue hnone =>
    cases hnone
    rw [hrealm, hpath] at hvalue
    exact ⟨_, hfields, hvalue⟩

/-- The fields of an answer that challenge. -/
def shownChallenges (o : Occasion) : Option (List Bytes) :=
  (timedSite.handle pageRequest o twoRealms).map fun x => x.1.headers.all "www-authenticate"

/-- Of two line endings one is taken off, and the domain of what remains is listed without being challenged. Neither is
one that no keys can be drawn for, and none is where the work takes too long. -/
theorem listed_domains_can_go_unchallenged :
    Acl.domains twoRealms.files Acl.anonymous (addressed pageRequest).entry =
      (["admin".toList, "guest".toList], []) ∧
    (Acl.domain twoRealms.files (addressed pageRequest).entry "guest".toList).realm = "Area\n".toList ∧
    ((timedSite.handle pageRequest (taking 20 countedKeys) twoRealms).map fun x =>
      x.2.2.cache.map fun kn => kn.2.domain) = some ["admin".toList, "guest".toList] ∧
    shownChallenges (taking 20 countedKeys) =
      some [Ascii.bytes "Basic", Ascii.bytes ("Digest realm=\"\\\"A\\\"\", domain=\"/\", nonce=\"AA==\", " ++
        "opaque=\"AA==\", algorithm=\"MD5\", qop=\"auth\"")] ∧
    shownChallenges (taking 20 fun _ => none) = some [Ascii.bytes "Basic"] ∧
    shownChallenges (taking 30001 countedKeys) = some [] :=
  ⟨by decide +kernel, by decide +kernel, by decide +kernel, by decide +kernel, by decide +kernel, by decide +kernel⟩

end Server

end EntryServer.Http
