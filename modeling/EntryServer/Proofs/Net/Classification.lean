import EntryServer.Proofs.Net.Replay

/-! # Which requests are told from encrypted records

A connection is told by as many of its first bytes as have arrived, and these can reach beyond the head of a request
into its body. The head is text and never misleads. A request is told to be plain exactly if what was taken of its
body is text as well, so a binary body that arrives with its head has the request refused, and the cut between
two arrivals decides. An encrypted record is told by its first byte, whatever follows. -/
namespace EntryServer.Net
set_option autoImplicit false

/-! ## Text -/

/-- Printable ASCII, tab, carriage return and line feed. -/
def IsText (b : UInt8) : Prop := b = 9 ∨ b = 13 ∨ b = 10 ∨ 32 ≤ b.toNat ∧ b.toNat ≤ 126

instance (b : UInt8) : Decidable (IsText b) := inferInstanceAs (Decidable (_ ∨ _))

/-- The head of a request: nothing but text, with a blank line at its end. -/
structure IsHead (head : Bytes) : Prop where
  text : ∀ b ∈ head, IsText b
  blank : Ascii.bytes "\r\n\r\n" <:+ head

theorem isPlain_iff {b : UInt8} : isPlain b = true ↔ IsText b := by
  have hlow : (0x20 : UInt8) ≤ b ↔ 32 ≤ b.toNat := UInt8.le_iff_toNat_le
  have hhigh : b ≤ (0x7E : UInt8) ↔ b.toNat ≤ 126 := UInt8.le_iff_toNat_le
  simp only [isPlain, IsText, Bool.or_eq_true, Bool.and_eq_true, decide_eq_true_eq, hlow, hhigh, or_assoc]

theorem classify_eq_http_iff {bytes : Bytes} : classify bytes = .http ↔ ∀ b ∈ bytes, IsText b := by
  have hall : bytes.all isPlain = true ↔ ∀ b ∈ bytes, IsText b := by
    simp only [List.all_eq_true, isPlain_iff]
  rw [classify, ← hall]
  cases bytes.all isPlain <;> decide

theorem classify_eq_tls_iff {bytes : Bytes} : classify bytes = .tls ↔ ∃ b ∈ bytes, ¬ IsText b := by
  have hhttp : classify bytes = .tls ↔ ¬ classify bytes = .http := by
    cases classify bytes <;> decide
  rw [hhttp, classify_eq_http_iff]
  simp

/-! ## Requests and records -/

/-- Of a request, only the part of the body that was taken can mislead. -/
theorem classify_request_iff {head : Bytes} (h : IsHead head) (body : Bytes) (n : Nat) :
    classify ((head ++ body).take n) = .http ↔ ∀ b ∈ body.take (n - head.length), IsText b := by
  rw [classify_eq_http_iff, List.take_append]
  constructor
  · intro htext b hb
    exact htext b (List.mem_append_right _ hb)
  · intro htext b hb
    rcases List.mem_append.mp hb with hb | hb
    · exact h.text b (List.mem_of_mem_take hb)
    · exact htext b hb

theorem classify_record (rest : Bytes) {n : Nat} (hn : 0 < n) : classify ((0x16 :: rest).take n) = .tls := by
  obtain ⟨m, rfl⟩ := Nat.exists_eq_add_one_of_ne_zero (Nat.ne_of_gt hn)
  exact classify_eq_tls_iff.mpr ⟨0x16, List.mem_cons_self .., by decide⟩

/-- What is taken of a stream is its beginning. -/
theorem sniff_takes {s : Stream} (h : s.unread ≠ []) : ∃ r n, sniff s = some r ∧ 0 < n ∧ n ≤ sniffLength ∧
    r.held.bytes = s.unread.take n := by
  obtain ⟨r, hsniff, hunread, -, hgiven, hpos, hle⟩ := sniff_keeps h
  refine ⟨r, r.held.bytes.length, hsniff, hpos, hle, ?_⟩
  rw [← hunread, Replay.unread, Held.rest, hgiven, List.drop_zero, List.take_left]

/-- Of a request that arrives with its body, whatever is taken is told to be plain exactly if what is taken of the
body is text, and a request with other bytes there is refused where there is no certificate. A stream that begins
like an encrypted record is told by its first byte. -/
theorem request_is_plain_iff {head : Bytes} (h : IsHead head) (body : Bytes) :
    (∀ n, classify ((head ++ body).take n) = .http ↔ ∀ b ∈ body.take (n - head.length), IsText b) ∧
    (∀ s : Stream, s.unread = head ++ body → ∃ r n, sniff s = some r ∧ 0 < n ∧ n ≤ sniffLength ∧
      r.held.bytes = (head ++ body).take n ∧
      ((∀ b ∈ body.take (n - head.length), IsText b) →
        ∀ tlsAvailable, dispatch tlsAvailable s = .ok (.http, r)) ∧
      ((∃ b ∈ body.take (n - head.length), ¬ IsText b) →
        dispatch true s = .ok (.tls, r) ∧ dispatch false s = .error .tlsUnavailable)) ∧
    (∀ rest n, 0 < n → classify ((0x16 :: rest).take n) = .tls) ∧
    ∀ (s : Stream) rest, s.unread = 0x16 :: rest →
      ∃ r, dispatch true s = .ok (.tls, r) ∧ dispatch false s = .error .tlsUnavailable := by
  refine ⟨classify_request_iff h body, fun s hs => ?_, fun rest n => classify_record rest, fun s rest hs => ?_⟩
  · have hne : s.unread ≠ [] := by
      intro hnil
      have hhead : head = [] := (List.append_eq_nil_iff.mp (hs.symm.trans hnil)).1
      have hblank := h.blank
      rw [hhead, List.suffix_nil] at hblank
      exact absurd hblank (by decide)
    obtain ⟨r, n, hsniff, hpos, hle, hheld⟩ := sniff_takes hne
    rw [hs] at hheld
    refine ⟨r, n, hsniff, hpos, hle, hheld, fun htext tlsAvailable => ?_, fun hother => ?_⟩
    · have hhttp := (classify_request_iff h body n).mpr htext
      rw [← hheld] at hhttp
      rw [dispatch_of_sniff hsniff, hhttp, if_neg (by simp)]
    · have htls : classify r.held.bytes = .tls := by
        obtain ⟨b, hb, hbtext⟩ := hother
        rw [hheld, List.take_append]
        exact classify_eq_tls_iff.mpr ⟨b, List.mem_append_right _ hb, hbtext⟩
      rw [dispatch_of_sniff hsniff, dispatch_of_sniff hsniff, htls]
      exact ⟨rfl, rfl⟩
  · obtain ⟨r, n, hsniff, hpos, -, hheld⟩ := sniff_takes (by rw [hs]; exact List.cons_ne_nil _ _)
    have htls : classify r.held.bytes = .tls := by
      rw [hheld, hs]
      exact classify_record rest hpos
    refine ⟨r, ?_, ?_⟩
    · rw [dispatch_of_sniff hsniff, htls]
      rfl
    · rw [dispatch_of_sniff hsniff, htls]
      rfl

/-! ## An upload -/

def uploadHead : Bytes := Ascii.bytes "PUT /a HTTP/1.1\r\nHost: a\r\nContent-Length: 1\r\n\r\n"

theorem isHead_uploadHead : IsHead uploadHead := ⟨classify_eq_http_iff.mp (by decide), by decide⟩

theorem request_is_plain_upload : IsHead uploadHead ∧
    classify ((uploadHead ++ [0xFF]).take uploadHead.length) = .http ∧
    classify ((uploadHead ++ [0xFF]).take (uploadHead.length + 1)) ≠ .http := by
  obtain ⟨hcut, -⟩ := request_is_plain_iff isHead_uploadHead [0xFF]
  refine ⟨isHead_uploadHead, (hcut _).mpr fun b hb => ?_, fun h => ?_⟩
  · rw [Nat.sub_self] at hb
    exact absurd hb List.not_mem_nil
  · exact absurd ((hcut _).mp h 0xFF (by decide)) (by decide)

/-- The same upload is read or refused, as its body arrives after its head or with it. -/
theorem binary_body_is_taken_for_record : IsHead uploadHead ∧
    (dispatch false ⟨[uploadHead, [0xFF]], []⟩).toOption.isSome = true ∧
    dispatch false ⟨[uploadHead ++ [0xFF]], []⟩ = .error .tlsUnavailable ∧
    classify ((uploadHead ++ [0xFF]).take sniffLength) = .tls := by
  refine ⟨isHead_uploadHead, by decide, ?_, by decide⟩
  rfl

end EntryServer.Net
