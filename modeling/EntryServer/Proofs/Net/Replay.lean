import EntryServer.Net.Stream

/-! # Nothing is lost at the beginning of a connection

The bytes that a connection is told by are given back to its reader before all others. Each read takes some bytes
from the front of what is unread and leaves the others, and it comes back empty only at the end. So whatever the
arrivals, the limits of the reads and the writes between them are, what was read with what is still unread is what
the peer sent. -/
namespace EntryServer.Net
set_option autoImplicit false

/-! ## One read -/

/-- A read of at most `n` bytes takes them from the front of what is unread. It takes none only at the end. -/
structure Takes (n : Nat) (bytes before after : Bytes) : Prop where
  whole : bytes ++ after = before
  bound : bytes.length ≤ n
  ends : 0 < n → bytes = [] → before = []

theorem Takes.nil_iff {n : Nat} {bytes before after : Bytes} (h : Takes n bytes before after) (hn : 0 < n) :
    bytes = [] ↔ before = [] := by
  refine ⟨h.ends hn, ?_⟩
  rintro rfl
  exact (List.append_eq_nil_iff.mp h.whole).1

theorem takes_front (n : Nat) {bytes : Bytes} (hbytes : bytes ≠ []) (after : Bytes) :
    Takes n (bytes.take n) (bytes ++ after) (bytes.drop n ++ after) := by
  refine ⟨?_, List.length_take_le _ _, fun hn hnil => ?_⟩
  · rw [← List.append_assoc, List.take_append_drop]
  · rcases List.take_eq_nil_iff.mp hnil with rfl | rfl
    · exact absurd hn (Nat.lt_irrefl 0)
    · exact absurd rfl hbytes

namespace Stream

theorem take_takes (n : Nat) (parts : List Bytes) :
    Takes n (take n parts).1 parts.flatten (take n parts).2.flatten := by
  fun_induction take n parts with
  | case1 => exact ⟨rfl, Nat.zero_le _, fun _ _ => rfl⟩
  | case2 rest ih => exact ih
  | case3 part rest hpart => exact takes_front n (fun hnil => hpart hnil) rest.flatten

theorem read_takes (s : Stream) (n : Nat) : Takes n (s.read n).1 s.unread (s.read n).2.unread :=
  take_takes n s.arriving

theorem readArrived_whole (s : Stream) (n : Nat) : (s.readArrived n).1 ++ (s.readArrived n).2.unread = s.unread := by
  unfold readArrived
  split
  · rfl
  · next part rest harriving =>
    simp only [unread, harriving, List.flatten_cons]
    rw [← List.append_assoc, List.take_append_drop]

theorem length_readArrived_le (s : Stream) (n : Nat) : (s.readArrived n).1.length ≤ n := by
  unfold readArrived
  split
  · exact Nat.zero_le n
  · exact List.length_take_le _ _

theorem readArrived_sent (s : Stream) (n : Nat) : (s.readArrived n).2.sent = s.sent := by
  unfold readArrived
  split <;> rfl

end Stream

namespace Held

/-- What is left of the held bytes is right also after the last of them, when they are no longer kept. -/
theorem rest_give (h : Held) (n : Nat) : (h.give n).2.rest = h.rest.drop n := by
  have hlength : (h.rest.take n).length = min n (h.bytes.length - h.given) := by
    rw [List.length_take, rest, List.length_drop]
  have hleft : h.rest.drop n = h.bytes.drop (h.given + n) := List.drop_drop ..
  rw [hleft]
  simp only [give, hlength]
  split
  · next hall => exact (List.drop_eq_nil_of_le (by omega)).symm
  · next hmore =>
    change h.bytes.drop (h.given + min n (h.bytes.length - h.given)) = _
    by_cases hn : n ≤ h.bytes.length - h.given
    · rw [Nat.min_eq_left hn]
    · rw [List.drop_eq_nil_of_le (by omega), List.drop_eq_nil_of_le (by omega)]

end Held

namespace Replay

theorem read_takes (r : Replay) (n : Nat) : Takes n (r.read n).1 r.unread (r.read n).2.unread := by
  unfold read
  split
  · next hgiven =>
    have hrest : r.held.rest ≠ [] := by
      rw [Held.rest, ne_eq, List.drop_eq_nil_iff]
      omega
    have htakes := takes_front n hrest r.stream.unread
    rw [← Held.rest_give] at htakes
    exact htakes
  · next hgiven =>
    have hrest : r.held.rest = [] := List.drop_eq_nil_of_le (Nat.not_lt.mp hgiven)
    simp only [unread, hrest, List.nil_append]
    exact r.stream.read_takes n

theorem read_sent (r : Replay) (n : Nat) : (r.read n).2.stream.sent = r.stream.sent := by
  unfold read
  split <;> rfl

end Replay

/-! ## Reads and writes -/

/-- What is done with a connection. -/
inductive Use
  | read (limit : Nat)
  | write (bytes : Bytes)
  deriving DecidableEq, Repr

/-- What comes of the reads, each with its limit, and what is left of the connection. -/
def Replay.run (r : Replay) : List Use → List (Nat × Bytes) × Replay
  | [] => ([], r)
  | .read limit :: uses =>
    let (bytes, r) := r.read limit
    let (answers, r) := r.run uses
    ((limit, bytes) :: answers, r)
  | .write bytes :: uses => (r.write bytes).run uses

def received (answers : List (Nat × Bytes)) : Bytes := (answers.map Prod.snd).flatten

def Use.written : Use → Bytes
  | .read _ => []
  | .write bytes => bytes

theorem received_cons (answer : Nat × Bytes) (answers : List (Nat × Bytes)) :
    received (answer :: answers) = answer.2 ++ received answers := rfl

namespace Replay
variable (uses : List Use) (r : Replay)

theorem received_run : received (r.run uses).1 ++ (r.run uses).2.unread = r.unread := by
  induction uses generalizing r with
  | nil => rfl
  | cons use uses ih =>
    cases use with
    | read limit =>
      have htakes := r.read_takes limit
      rw [run, received_cons, List.append_assoc, ih, htakes.whole]
    | write bytes => exact ih (r.write bytes)

theorem sent_run : (r.run uses).2.stream.sent = r.stream.sent ++ uses.flatMap Use.written := by
  induction uses generalizing r with
  | nil => exact (List.append_nil _).symm
  | cons use uses ih =>
    cases use with
    | read limit =>
      rw [run, ih, read_sent]
      rfl
    | write bytes =>
      rw [run, ih, List.flatMap_cons, ← List.append_assoc]
      rfl

/-- Every answer keeps its limit, and it is the end of the stream exactly if everything was read before it. -/
theorem answer_run {earlier later : List (Nat × Bytes)} {limit : Nat} {bytes : Bytes}
    (h : (r.run uses).1 = earlier ++ (limit, bytes) :: later) :
    bytes.length ≤ limit ∧ (0 < limit → (bytes = [] ↔ received earlier = r.unread)) := by
  induction uses generalizing r earlier with
  | nil => simp [run] at h
  | cons use uses ih =>
    cases use with
    | write more => exact ih (r.write more) h
    | read n =>
      have htakes := r.read_takes n
      rw [run] at h
      cases earlier with
      | nil =>
        obtain ⟨hanswer, -⟩ := List.cons.inj h
        obtain ⟨rfl, rfl⟩ := Prod.mk.inj hanswer
        refine ⟨htakes.bound, fun hn => ?_⟩
        rw [htakes.nil_iff hn]
        exact eq_comm
      | cons first earlier =>
        obtain ⟨rfl, hrest⟩ := List.cons.inj h
        obtain ⟨hbound, hend⟩ := ih (r.read n).2 hrest
        refine ⟨hbound, fun hn => ?_⟩
        rw [hend hn, received_cons, ← htakes.whole, List.append_cancel_left_eq]

end Replay

/-! ## From the first byte on -/

/-- What is taken to tell a connection is held for its reader, and is as long as was looked at, at most. -/
theorem sniff_keeps {s : Stream} (h : s.unread ≠ []) : ∃ r, sniff s = some r ∧ r.unread = s.unread ∧
    r.stream.sent = s.sent ∧ r.held.given = 0 ∧ 0 < r.held.bytes.length ∧ r.held.bytes.length ≤ sniffLength := by
  have htakes := s.read_takes 1
  have hfirst : (s.read 1).1 ≠ [] := fun hnil => h (htakes.ends Nat.one_pos hnil)
  obtain ⟨b, hb⟩ : ∃ b, (s.read 1).1 = [b] := List.length_eq_one_iff.mp
    (Nat.le_antisymm htakes.bound (List.length_pos_iff.mpr hfirst))
  have hmore := (s.read 1).2.length_readArrived_le (sniffLength - 1)
  have hwhole := (s.read 1).2.readArrived_whole (sniffLength - 1)
  have hsent := (s.read 1).2.readArrived_sent (sniffLength - 1)
  refine ⟨⟨(s.read 1).1 ++ ((s.read 1).2.readArrived (sniffLength - 1)).1,
    ((s.read 1).2.readArrived (sniffLength - 1)).2⟩, ?_, ?_, hsent, rfl, ?_, ?_⟩
  · rw [sniff]
    split
    · next hread => rw [hread] at hfirst; exact absurd rfl hfirst
    · next hread => rw [hread]
  · rw [Replay.unread, Held.rest, List.drop_zero, List.append_assoc, hwhole, htakes.whole]
  · rw [hb]
    simp
  · rw [hb, List.length_append, List.length_singleton]
    have : 0 < sniffLength := by decide
    omega

theorem dispatch_of_sniff {s : Stream} {r : Replay} (h : sniff s = some r) (tlsAvailable : Bool) :
    dispatch tlsAvailable s = if classify r.held.bytes = .tls ∧ tlsAvailable = false then .error .tlsUnavailable
      else .ok (classify r.held.bytes, r) := by
  rw [dispatch, h]
  cases hc : classify r.held.bytes with
  | http => simp [hc]
  | tls => cases tlsAvailable <;> simp [hc]

/-- Telling a connection that sends anything leaves a connection behind that is read as if nothing had been taken
from it, unless it is refused. -/
theorem dispatch_is_lossless {s : Stream} (h : s.unread ≠ []) :
    ∃ r, sniff s = some r ∧
      (∀ tlsAvailable, dispatch tlsAvailable s =
        if classify r.held.bytes = .tls ∧ tlsAvailable = false then .error .tlsUnavailable
        else .ok (classify r.held.bytes, r)) ∧
      ∀ uses, received (r.run uses).1 ++ (r.run uses).2.unread = s.unread ∧
        (r.run uses).2.stream.sent = s.sent ++ uses.flatMap Use.written ∧
        ∀ earlier limit bytes later, (r.run uses).1 = earlier ++ (limit, bytes) :: later →
          bytes.length ≤ limit ∧ (0 < limit → (bytes = [] ↔ received earlier = s.unread)) := by
  obtain ⟨r, hsniff, hunread, hsent, -⟩ := sniff_keeps h
  refine ⟨r, hsniff, dispatch_of_sniff hsniff, fun uses => ⟨?_, ?_, fun earlier limit bytes later hrun => ?_⟩⟩
  · rw [r.received_run, hunread]
  · rw [r.sent_run, hsent]
  · rw [← hunread]
    exact r.answer_run uses hrun

/-- A request line of which the first byte arrives alone. -/
def greeting : Stream := ⟨[[], Ascii.bytes "G", Ascii.bytes "ET /"], []⟩

theorem dispatch_is_lossless_greeting : greeting.unread ≠ [] ∧
    ∃ r, sniff greeting = some r ∧ r.held.bytes = Ascii.bytes "G" ∧ dispatch false greeting = .ok (.http, r) ∧
      ∀ uses, received (r.run uses).1 ++ (r.run uses).2.unread = Ascii.bytes "GET /" := by
  have hne : greeting.unread ≠ [] := by decide
  obtain ⟨r, hsniff, hdispatch, hlossless⟩ := dispatch_is_lossless hne
  have hheld : r.held.bytes = Ascii.bytes "G" :=
    congrArg (fun r => r.held.bytes) (Option.some.inj (hsniff.symm.trans rfl))
  refine ⟨hne, r, hsniff, hheld, ?_, fun uses => (hlossless uses).1⟩
  rw [hdispatch false, hheld]
  rfl

end EntryServer.Net
