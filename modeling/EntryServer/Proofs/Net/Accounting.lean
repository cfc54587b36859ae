import EntryServer.Net.AcceptLoop
import Mathlib.Data.List.Perm.Subperm
import Mathlib.Data.List.Nodup

/-! # The accounts of the accept loop

Slots and guards are counted in two places, and change hands while connections are accepted, fail, are given up, end
and are broken off. In every state of every run a slot is free or held, and the tracker counts the guards that are
held, up to its size. Where tasks come to their ends, every guard is held together with a slot; a task that is broken
off loses its slot first, and keeps its guard a moment longer. So no slot is lost, the count never goes below zero, and
who finds no connection active has looked at a moment at which no guard was held. -/
namespace EntryServer.Net.AcceptLoop
set_option autoImplicit false

open Tracker (wordSize)

theorem wordSize_eq : wordSize = 18446744073709551616 := rfl

/-! ## What an event does -/

section Effects
variable {s s' : AcceptLoop} {e : Event} {tasks : List (Nat × Holding)}

/-- A task that changes is counted apart from the others. -/
theorem countP_of_mem {task : Nat × Holding} (h : task ∈ tasks) (p : Nat × Holding → Bool) :
    tasks.countP p = (tasks.erase task).countP p + if p task then 1 else 0 := by
  rw [(List.perm_cons_erase h).countP_eq, List.countP_cons]

/-- What an event does to the accounts. A guard is counted when it is given out, and counted no more when it is given
back, which takes a count above zero. -/
structure Effect (s : AcceptLoop) (e : Event) (s' : AcceptLoop) : Prop where
  slots : s'.listener.free + s'.heldSlots = s.listener.free + s.heldSlots
  guards : s'.heldGuards = s.heldGuards ∧ s'.tracker.active = s.tracker.active ∨
    s'.heldGuards = s.heldGuards + 1 ∧ s'.tracker.active = (s.tracker.active + 1) % wordSize ∨
    s.heldGuards = s'.heldGuards + 1 ∧ s.tracker.active = s'.tracker.active + 1
  nextId : s'.tracker.nextId = if e = .spawn then (s.tracker.nextId + 1) % wordSize else s.tracker.nextId
  brokenOff : (∀ n, e ≠ .breakOff n) → s'.brokenOff ≤ s.brokenOff

theorem exists_of_release {t t' : Tracker} (h : t.release? = some t') :
    t.active = t'.active + 1 ∧ t'.nextId = t.nextId := by
  rw [Tracker.release?] at h
  split at h
  · cases h
  · obtain rfl := Option.some.inj h
    exact ⟨by simp only; omega, rfl⟩

/-- Accepting that is given up gives its slot back. -/
theorem effect_giveUp (s : AcceptLoop) (he : e ≠ .spawn) : Effect s e s.giveUp := by
  refine ⟨?_, .inl ⟨rfl, rfl⟩, (if_neg he).symm, fun _ => Nat.le_refl _⟩
  by_cases h : s.accepting = .unslotted
  · simp only [giveUp, heldSlots, h, if_true]
  · simp only [giveUp, heldSlots, h, if_false, if_true, Listener.release]
    omega

theorem effect_takeSlot (h : s.step? .takeSlot = some s') : Effect s .takeSlot s' := by
  rw [step?] at h
  split at h
  · next hwaits =>
    obtain ⟨l, hl, rfl⟩ := Option.map_eq_some_iff.mp h
    rw [Listener.take?] at hl
    split at hl
    · cases hl
    · obtain rfl := Option.some.inj hl
      refine ⟨?_, .inl ⟨rfl, rfl⟩, rfl, fun _ => Nat.le_refl _⟩
      simp only [heldSlots, hwaits, if_true, reduceCtorEq, if_false]
      omega
  · cases h

/-- The slot goes over to the task, with a guard. -/
theorem effect_spawn (h : s.step? .spawn = some s') : Effect s .spawn s' := by
  rw [step?] at h
  split at h
  · next haccepted =>
    obtain rfl := Option.some.inj h
    refine ⟨?_, .inr (.inl ⟨?_, rfl⟩), rfl, fun _ => Nat.le_of_eq ?_⟩
    · simp [heldSlots, haccepted, Holding.hasSlot]
    · simp [heldGuards, Holding.hasGuard]
    · simp [brokenOff]
  · cases h

theorem effect_dropGuard {n : Nat} (h : s.step? (.dropGuard n) = some s') : Effect s (.dropGuard n) s' := by
  rw [step?] at h
  split at h
  · next hmem =>
    obtain ⟨tracker, htracker, rfl⟩ := Option.map_eq_some_iff.mp h
    obtain ⟨hactive, hnext⟩ := exists_of_release htracker
    refine ⟨?_, .inr (.inr ⟨?_, hactive⟩), hnext, fun _ => Nat.le_of_eq ?_⟩
    · simp [heldSlots, countP_of_mem hmem, Holding.hasSlot]
    · simp [heldGuards, countP_of_mem hmem, Holding.hasGuard]
    · simp [brokenOff, countP_of_mem hmem]
  · cases h

theorem effect_dropSlot {n : Nat} (h : s.step? (.dropSlot n) = some s') : Effect s (.dropSlot n) s' := by
  rw [step?] at h
  split at h
  · next hmem =>
    obtain rfl := Option.some.inj h
    refine ⟨?_, .inl ⟨?_, rfl⟩, rfl, fun _ => Nat.le_of_eq ?_⟩
    · simp [heldSlots, countP_of_mem hmem, Holding.hasSlot, Listener.release]
      omega
    · simp [heldGuards, countP_of_mem hmem, Holding.hasGuard]
    · simp [brokenOff, countP_of_mem hmem]
  · cases h

theorem effect_breakOff {n : Nat} (h : s.step? (.breakOff n) = some s') : Effect s (.breakOff n) s' := by
  rw [step?] at h
  split at h
  · next hmem =>
    obtain rfl := Option.some.inj h
    refine ⟨?_, .inl ⟨?_, rfl⟩, rfl, fun hother => absurd rfl (hother n)⟩
    · simp [heldSlots, countP_of_mem hmem, Holding.hasSlot, Listener.release]
      omega
    · simp [heldGuards, countP_of_mem hmem, Holding.hasGuard]
  · cases h

theorem effect_loseGuard {n : Nat} (h : s.step? (.loseGuard n) = some s') : Effect s (.loseGuard n) s' := by
  rw [step?] at h
  split at h
  · next hmem =>
    obtain ⟨tracker, htracker, rfl⟩ := Option.map_eq_some_iff.mp h
    obtain ⟨hactive, hnext⟩ := exists_of_release htracker
    refine ⟨?_, .inr (.inr ⟨?_, hactive⟩), hnext, fun _ => ?_⟩
    · simp [heldSlots, countP_of_mem hmem, Holding.hasSlot]
    · simp [heldGuards, countP_of_mem hmem, Holding.hasGuard]
    · simp [brokenOff, countP_of_mem hmem]
  · cases h

theorem effect_of_step (h : s.step? e = some s') : Effect s e s' := by
  cases e with
  | takeSlot => exact effect_takeSlot h
  | peerArrives =>
    rw [step?] at h
    split at h
    · next hslotted =>
      obtain rfl := Option.some.inj h
      refine ⟨?_, .inl ⟨rfl, rfl⟩, rfl, fun _ => Nat.le_refl _⟩
      simp only [heldSlots, hslotted, reduceCtorEq, if_false]
    · cases h
  | fail =>
    rw [step?] at h
    split at h
    · exact Option.some.inj h ▸ effect_giveUp s nofun
    · cases h
  | abandon =>
    rw [step?] at h
    split at h
    · cases h
    · exact Option.some.inj h ▸ effect_giveUp s nofun
  | spawn => exact effect_spawn h
  | dropGuard n => exact effect_dropGuard h
  | dropSlot n => exact effect_dropSlot h
  | breakOff n => exact effect_breakOff h
  | loseGuard n => exact effect_loseGuard h

end Effects

/-! ## The accounts -/

/-- The accounts of a loop with so many slots: every slot is free or held, and the tracker counts the guards that are
held, up to its size. -/
structure Balanced (max : Nat) (s : AcceptLoop) : Prop where
  slots : s.listener.free + s.heldSlots = max
  guards : s.tracker.active = s.heldGuards % wordSize
  nextId : s.tracker.nextId < wordSize

theorem balanced_start (max : Nat) : Balanced max (start ⟨max, max⟩) :=
  ⟨rfl, rfl, (by decide : 1 < wordSize)⟩

/-- A guard is held with a slot, or by a task that was broken off. -/
theorem heldGuards_le (s : AcceptLoop) : s.heldGuards ≤ s.heldSlots + s.brokenOff := by
  have hone : ∀ held : Holding, (if held.hasGuard then 1 else 0) ≤
      (if held.hasSlot then 1 else 0) + if held = .guard then 1 else 0 := by
    intro held
    cases held <;> decide
  have htasks : ∀ tasks : List (Nat × Holding),
      tasks.countP (·.2.hasGuard) ≤ tasks.countP (·.2.hasSlot) + tasks.countP (·.2 = .guard) := by
    intro tasks
    induction tasks with
    | nil => exact Nat.le_refl _
    | cons task tasks ih =>
      have htask := hone task.2
      simp only [List.countP_cons, decide_eq_true_eq]
      omega
  have hall := htasks s.tasks
  rw [heldGuards, heldSlots, brokenOff]
  omega

namespace Balanced
variable {max : Nat} {s s' : AcceptLoop} {e : Event}

theorem step (hs : s.Balanced max) (h : s.step? e = some s') : s'.Balanced max := by
  obtain ⟨hslots, hguards, hnext⟩ := hs
  have he := effect_of_step h
  refine ⟨he.slots.trans hslots, ?_, ?_⟩
  · rw [wordSize_eq] at hguards ⊢
    obtain ⟨hheld, hactive⟩ | ⟨hheld, hactive⟩ | ⟨hheld, hactive⟩ := he.guards
    · rw [hactive, hheld, hguards]
    · rw [hactive, hheld, hguards, wordSize_eq, Nat.mod_add_mod]
    · rw [hheld, hactive] at hguards
      omega
  · rw [he.nextId]
    split
    · exact Nat.mod_lt _ (by decide)
    · exact hnext

theorem active_eq (hs : s.Balanced max) (h : s.heldGuards < wordSize) : s.tracker.active = s.heldGuards := by
  rw [hs.guards, Nat.mod_eq_of_lt h]

/-- Where a guard is held, the tracker can count one less. -/
theorem release_isSome (hs : s.Balanced max) (h : s.heldGuards < wordSize) {n : Nat} {held : Holding}
    (hguard : held.hasGuard = true) (hmem : (n, held) ∈ s.tasks) :
    0 < s.tracker.active ∧ ∃ t, s.tracker.release? = some t := by
  have hactive : 0 < s.tracker.active := by
    rw [hs.active_eq h, heldGuards, List.countP_pos_iff]
    exact ⟨_, hmem, hguard⟩
  refine ⟨hactive, ?_⟩
  rw [Tracker.release?, if_neg (Nat.ne_of_gt hactive)]
  exact ⟨_, rfl⟩

end Balanced

/-! ## Runs -/

section Runs
variable {max : Nat} {s s' : AcceptLoop} {e : Event} {events : List Event}

theorem balanced_of_run (hs : s.Balanced max) (h : s.run? events = some s') : s'.Balanced max := by
  induction events generalizing s with
  | nil => exact Option.some.inj h ▸ hs
  | cons e events ih =>
    obtain ⟨s₁, hstep, hrun⟩ := Option.bind_eq_some_iff.mp h
    exact ih (hs.step hstep) hrun

/-- Where no task is broken off, none stands between its slot and its guard. -/
theorem brokenOff_le_of_run (horderly : ∀ n, .breakOff n ∉ events) (h : s.run? events = some s') :
    s'.brokenOff ≤ s.brokenOff := by
  induction events generalizing s with
  | nil => exact Option.some.inj h ▸ Nat.le_refl _
  | cons e events ih =>
    obtain ⟨s₁, hstep, hrun⟩ := Option.bind_eq_some_iff.mp h
    have hfirst := (effect_of_step hstep).brokenOff fun n he => horderly n (he ▸ List.mem_cons_self)
    exact Nat.le_trans (ih (fun n hn => horderly n (List.mem_cons_of_mem _ hn)) hrun) hfirst

/-- The identifiers that connections get in a run, in their order. -/
def idsGiven : AcceptLoop → List Event → List Nat
  | _, [] => []
  | s, e :: events =>
    match s.step? e with
    | none => []
    | some s' => if e = .spawn then s.tracker.track.1 :: s'.idsGiven events else s'.idsGiven events

/-- Identifiers are given one after the other, and begin anew when the counter wraps. -/
theorem idsGiven_eq (hs : s.tracker.nextId < wordSize) (h : s.run? events = some s') :
    s.idsGiven events = (List.range (events.count .spawn)).map fun i => (s.tracker.nextId + i) % wordSize := by
  induction events generalizing s with
  | nil => rfl
  | cons e events ih =>
    obtain ⟨s₁, hstep, hrun⟩ := Option.bind_eq_some_iff.mp h
    have hnext := (effect_of_step hstep).nextId
    rw [idsGiven, hstep]
    simp only
    split
    · next hspawn =>
      rw [if_pos hspawn] at hnext
      rw [ih (hnext ▸ Nat.mod_lt _ (by decide)) hrun, hspawn, List.count_cons_self, List.range_succ_eq_map,
        List.map_cons, List.map_map, hnext]
      refine List.cons_eq_cons.mpr ⟨(Nat.mod_eq_of_lt hs).symm, List.map_congr_left fun i _ => ?_⟩
      rw [Nat.mod_add_mod, Function.comp_apply, Nat.add_right_comm, Nat.add_assoc]
    · next hspawn =>
      rw [if_neg hspawn] at hnext
      rw [ih (hnext ▸ hs) hrun, List.count_cons_of_ne hspawn, hnext]

/-- Words that follow each other are distinct until all of them have been used. -/
theorem nodup_words_iff (first n : Nat) :
    ((List.range n).map fun i => (first + i) % wordSize).Nodup ↔ n ≤ wordSize := by
  constructor
  · intro h
    have hwords : ((List.range n).map fun i => (first + i) % wordSize) ⊆ List.range wordSize := by
      intro word hword
      obtain ⟨i, -, rfl⟩ := List.mem_map.mp hword
      exact List.mem_range.mpr (Nat.mod_lt _ (by decide))
    have hlength := (h.subperm hwords).length_le
    simpa only [List.length_map, List.length_range] using hlength
  · intro h
    refine List.nodup_range.map_on fun i hi j hj heq => ?_
    rw [List.mem_range] at hi hj
    rw [wordSize_eq] at h heq
    omega

/-- Without a free slot nobody is accepted. -/
theorem acceptOne_full (hfree : s.listener.free = 0) : s.acceptOne = s := by
  have hstep : s.step? .takeSlot = none := by
    rw [step?, Listener.take?, if_pos hfree]
    exact ite_self _
  rw [acceptOne, run?, List.foldlM_cons, hstep]
  rfl

theorem acceptOne_eq (hloop : s.accepting = .unslotted) (hfree : s.listener.free ≠ 0) :
    s.acceptOne = { s with
      listener := { s.listener with free := s.listener.free - 1 }
      tracker := s.tracker.track.2
      tasks := (s.tracker.nextId, .slotAndGuard) :: s.tasks } := by
  have hstep : s.step? .takeSlot =
      some { s with listener := { s.listener with free := s.listener.free - 1 }, accepting := .slotted } := by
    rw [step?, if_pos hloop, Listener.take?, if_neg hfree]
    rfl
  rw [acceptOne, run?, List.foldlM_cons, hstep]
  simp [step?, Tracker.track, hloop]

/-- A connection that is accepted and comes to its end leaves nothing behind but the use of its identifier. -/
theorem finish_acceptOne (hloop : s.accepting = .unslotted) (hfree : s.listener.free ≠ 0)
    (hactive : s.tracker.active + 1 < wordSize) :
    s.acceptOne.finish s.tracker.nextId =
      { s with tracker := { s.tracker with nextId := (s.tracker.nextId + 1) % wordSize } } := by
  rw [acceptOne_eq hloop hfree, finish]
  simp only [run?, List.foldlM_cons, List.foldlM_nil, step?, Tracker.track, Tracker.release?, Nat.mod_eq_of_lt hactive,
    List.mem_cons_self, if_true, List.erase_cons_head, Option.map, Option.bind, bind, pure, Option.getD,
    Listener.release, Nat.add_sub_cancel, Nat.succ_ne_zero, if_false,
    Nat.sub_add_cancel (Nat.pos_of_ne_zero hfree)]

/-- Four connections with a failed accept between them. The first one has come to its end, the second one was broken
off, and the fourth one has taken its slot. -/
def brokenTurnover : List Event :=
  [.takeSlot, .peerArrives, .spawn, .takeSlot, .fail, .takeSlot, .peerArrives, .spawn, .dropGuard 1, .dropSlot 1,
    .takeSlot, .peerArrives, .spawn, .breakOff 2, .takeSlot, .peerArrives, .spawn]

/-- Three guards are held besides two slots. -/
def crowded : AcceptLoop :=
  ⟨⟨2, 0⟩, ⟨3, 5⟩, .unslotted, [(4, .slotAndGuard), (2, .guard), (3, .slotAndGuard)]⟩

end Runs

end EntryServer.Net.AcceptLoop
