import EntryServer.Shutdown.Delivery
import Mathlib.Data.List.Basic

/-! # Who hears of the shutdown in the end

The signal is kept for everybody who is subscribed when it is given, until he looks. Who subscribes later finds
nothing, however often he looks. So in a run the signal reaches everybody exactly if nobody subscribes after it:
the accept loop has begun before, and accepts no connection any more. -/
namespace EntryServer.Shutdown
set_option autoImplicit false

/-! ## One look -/

theorem isPending_iff {c : Channel} {l : Subscription} : l.isPending c = true ↔ l.receiver.next ≠ c.sent := by
  rw [Subscription.isPending, Channel.receive, decide_eq_true_eq]
  split
  · next h => exact iff_of_false (fun hne => hne rfl) (fun hne => hne h)
  · next h =>
    split
    · exact iff_of_true (by simp) h
    · exact iff_of_true (by simp) h

/-- Who has nothing to find stays as he is, and everybody else is informed. -/
theorem receive_eq (c : Channel) (l : Subscription) : l.receive c =
    if l.receiver.next = c.sent then l
    else ⟨⟨if l.receiver.next + 1 = c.sent then c.sent else c.sent - 1⟩, true⟩ := by
  rw [Subscription.receive, Channel.receive]
  by_cases hnothing : l.receiver.next = c.sent
  · rw [if_pos hnothing, if_pos hnothing]
  · rw [if_neg hnothing, if_neg hnothing]
    by_cases hone : l.receiver.next + 1 = c.sent
    · rw [if_pos hone, if_pos hone]
    · rw [if_neg hone, if_neg hone]

/-- A look informs exactly those who have a signal to find, or know of it. -/
theorem informed_receive {c : Channel} {l : Subscription} :
    (l.receive c).informed = true ↔ l.isPending c = true ∨ l.informed = true := by
  rw [isPending_iff, receive_eq]
  split
  · next h => exact (or_iff_right (not_not_intro h)).symm
  · next h => exact iff_of_true rfl (Or.inl h)

theorem next_receive_le {c : Channel} {l : Subscription} (h : l.receiver.next ≤ c.sent) :
    (l.receive c).receiver.next ≤ c.sent := by
  rw [receive_eq]
  split
  · exact h
  · simp only
    split
    · exact Nat.le_refl _
    · exact Nat.sub_le ..

/-! ## One event -/

/-- Does the event make a subscription? -/
def Event.Subscribes (e : Event) : Prop := e = .serve ∨ e = .accept

namespace Service

/-- What an event does to the subscriptions. -/
inductive Effect (s s' : Service) : Event → Prop
  | watched : s'.channel = s.channel → s'.subscriptions = s.subscriptions → s'.triggered = s.triggered →
      Effect s s' .watch
  | signalled : s'.channel = s.channel.trigger → s'.subscriptions = s.subscriptions →
      s.triggered = false → s'.triggered = true → Effect s s' .trigger
  | subscribed {e : Event} : e.Subscribes → s'.channel = s.channel.subscribe.2 →
      s'.subscriptions.Perm (⟨s.channel.subscribe.1, false⟩ :: s.subscriptions) → s'.triggered = s.triggered →
      Effect s s' e
  | looked {e : Event} : ¬ e.Subscribes → e ≠ .trigger → s'.channel = s.channel →
      s'.subscriptions.length = s.subscriptions.length →
      (∀ l' ∈ s'.subscriptions, ∃ l ∈ s.subscriptions, l' = l ∨ l' = l.receive s.channel) →
      s'.triggered = s.triggered → Effect s s' e
  | left (i : Nat) : s'.channel = s.channel.leave → s'.subscriptions.length + 1 = s.subscriptions.length →
      s'.subscriptions ⊆ s.subscriptions → s'.triggered = s.triggered → Effect s s' (.connectionEnds i)

theorem mem_modify {l' : Subscription} {c : Channel} {i : Nat} {connections : List Subscription}
    (h : l' ∈ connections.modify i (Subscription.receive c)) : ∃ l ∈ connections, l' = l ∨ l' = l.receive c := by
  obtain ⟨j, hj⟩ := List.mem_iff_getElem?.mp h
  rw [List.getElem?_modify] at hj
  obtain ⟨l, hl, rfl⟩ := Option.map_eq_some_iff.mp hj
  refine ⟨l, List.mem_of_getElem? hl, ?_⟩
  split
  · exact Or.inr rfl
  · exact Or.inl rfl

theorem effect_of_step {s s' : Service} {e : Event} (h : s.step? e = some s') : Effect s s' e := by
  cases e with
  | watch =>
    rw [step?] at h
    split at h
    · cases h
    · obtain rfl := Option.some.inj h
      exact .watched rfl rfl rfl
  | trigger =>
    rw [step?] at h
    split at h
    · next hready =>
      obtain rfl := Option.some.inj h
      rw [Bool.and_eq_true, Bool.not_eq_true'] at hready
      exact .signalled rfl rfl hready.2 rfl
    · cases h
  | serve =>
    rw [step?] at h
    split at h
    · next hready =>
      obtain rfl := Option.some.inj h
      rw [Bool.and_eq_true, Option.isNone_iff_eq_none] at hready
      refine .subscribed (Or.inl rfl) rfl ?_ rfl
      rw [subscriptions, subscriptions, hready.2]
      exact .refl _
    · cases h
  | accept =>
    rw [step?] at h
    split at h
    · obtain rfl := Option.some.inj h
      refine .subscribed (Or.inr rfl) rfl ?_ rfl
      rw [subscriptions, subscriptions, ← List.append_assoc]
      exact List.perm_append_singleton ..
    · cases h
  | loopReceives =>
    obtain ⟨l, hloop, rfl⟩ := Option.map_eq_some_iff.mp h
    refine .looked (by simp [Event.Subscribes]) (by simp) rfl ?_ ?_ rfl
    · simp [subscriptions, hloop]
    · intro l' hl'
      rcases List.mem_cons.mp hl' with rfl | hl'
      · exact ⟨l, by simp [subscriptions, hloop], Or.inr rfl⟩
      · exact ⟨l', List.mem_append_right _ hl', Or.inl rfl⟩
  | connectionReceives i =>
    rw [step?] at h
    split at h
    · obtain rfl := Option.some.inj h
      refine .looked (by simp [Event.Subscribes]) (by simp) rfl ?_ ?_ rfl
      · simp [subscriptions]
      · intro l' hl'
        rcases List.mem_append.mp hl' with hl' | hl'
        · exact ⟨l', List.mem_append_left _ hl', Or.inl rfl⟩
        · obtain ⟨l, hl, heq⟩ := mem_modify hl'
          exact ⟨l, List.mem_append_right _ hl, heq⟩
    · cases h
  | connectionEnds i =>
    rw [step?] at h
    split at h
    · next hi =>
      obtain rfl := Option.some.inj h
      refine .left i rfl ?_ ?_ rfl
      · simp only [subscriptions, List.length_append, List.length_eraseIdx, hi, if_true]
        omega
      · exact List.append_subset.mpr ⟨List.subset_append_left .., fun l hl =>
          List.mem_append_right _ (List.mem_of_mem_eraseIdx hl)⟩
    · cases h

/-! ## What every event keeps -/

/-- The channel knows how many are subscribed, and nobody waits for a later signal than the next one. -/
structure Sound (s : Service) : Prop where
  counted : s.channel.receivers = s.subscriptions.length
  upToDate : ∀ l ∈ s.subscriptions, l.receiver.next ≤ s.channel.sent

/-- Everybody who is subscribed has the signal to find, or knows of it. -/
def Reached (s : Service) : Prop := ∀ l ∈ s.subscriptions, l.isPending s.channel = true ∨ l.informed = true

/-- Nobody who is subscribed has anything to find, or knows of a signal. -/
def Deaf (s : Service) : Prop := ∀ l ∈ s.subscriptions, l.receiver.next = s.channel.sent ∧ l.informed = false

variable {s s' : Service} {e : Event}

theorem sound_start : start.Sound := ⟨rfl, fun _ hl => nomatch hl⟩

theorem sent_le_trigger (c : Channel) : c.sent ≤ c.trigger.sent := by
  rw [Channel.trigger]
  split
  · exact Nat.le_refl _
  · exact Nat.le_succ _

theorem Sound.step (hs : s.Sound) (h : s.step? e = some s') : s'.Sound := by
  cases effect_of_step h with
  | watched hchannel hsubs _ => exact ⟨by rw [hchannel, hsubs, hs.counted], by rw [hchannel, hsubs]; exact hs.upToDate⟩
  | signalled hchannel hsubs =>
    refine ⟨?_, fun l hl => ?_⟩
    · rw [hchannel, hsubs, ← hs.counted, Channel.trigger]
      split <;> rfl
    · rw [hsubs] at hl
      rw [hchannel]
      exact Nat.le_trans (hs.upToDate l hl) (sent_le_trigger _)
  | subscribed _ hchannel hsubs =>
    refine ⟨?_, fun l hl => ?_⟩
    · rw [hchannel, hsubs.length_eq, List.length_cons, ← hs.counted]
      rfl
    · rw [hchannel]
      rcases List.mem_cons.mp (hsubs.mem_iff.mp hl) with rfl | hl
      · exact Nat.le_refl _
      · exact hs.upToDate l hl
  | looked _ _ hchannel hlength hlooked =>
    refine ⟨by rw [hchannel, hlength, hs.counted], fun l' hl' => ?_⟩
    rw [hchannel]
    obtain ⟨l, hl, rfl | rfl⟩ := hlooked l' hl'
    · exact hs.upToDate _ hl
    · exact next_receive_le (hs.upToDate l hl)
  | left i hchannel hlength hsubset =>
    refine ⟨?_, fun l hl => ?_⟩
    · rw [hchannel, Channel.leave, hs.counted, ← hlength, Nat.add_sub_cancel]
    · rw [hchannel]
      exact hs.upToDate l (hsubset hl)

/-- The signal is there for everybody who is subscribed when it is given. -/
theorem Sound.reached_of_trigger (hs : s.Sound) (h : s.step? .trigger = some s') : s'.Reached := by
  cases effect_of_step h with
  | signalled hchannel hsubs =>
    intro l hl
    rw [hsubs] at hl
    have hsome : s.channel.receivers ≠ 0 := by
      rw [hs.counted]
      exact Nat.ne_of_gt (List.length_pos_of_mem hl)
    have hnext := hs.upToDate l hl
    refine Or.inl (isPending_iff.mpr ?_)
    rw [hchannel, Channel.trigger, if_neg hsome]
    exact Nat.ne_of_lt (Nat.lt_succ_of_le hnext)
  | subscribed hsubscribes => cases hsubscribes <;> contradiction
  | looked _ hne => exact absurd rfl hne

/-- It stays for them as long as nobody else subscribes. -/
theorem Reached.step (hr : s.Reached) (htriggered : s.triggered = true) (he : ¬ e.Subscribes)
    (h : s.step? e = some s') : s'.Reached := by
  cases effect_of_step h with
  | watched hchannel hsubs =>
    rw [Reached, hchannel, hsubs]
    exact hr
  | signalled _ _ hfresh =>
    rw [hfresh] at htriggered
    cases htriggered
  | subscribed hsubscribes => exact absurd hsubscribes he
  | looked _ _ hchannel _ hlooked =>
    intro l' hl'
    rw [hchannel]
    obtain ⟨l, hl, rfl | rfl⟩ := hlooked l' hl'
    · exact hr _ hl
    · exact Or.inr (informed_receive.mpr (hr l hl))
  | left i hchannel _ hsubset =>
    intro l hl
    rw [hchannel]
    exact hr l (hsubset hl)

/-- Who subscribes has nothing to find yet. -/
theorem not_reached_of_subscribes (he : e.Subscribes) (h : s.step? e = some s') : ¬ s'.Reached := by
  cases effect_of_step h with
  | subscribed _ hchannel hsubs =>
    intro hr
    rcases hr _ (hsubs.mem_iff.mpr (List.mem_cons_self ..)) with hpending | hinformed
    · rw [hchannel] at hpending
      exact isPending_iff.mp hpending rfl
    · cases hinformed
  | watched => cases he <;> contradiction
  | signalled => cases he <;> contradiction
  | looked hnot => exact absurd he hnot
  | left => cases he <;> contradiction

/-- Once the signal is given, who has nothing to find never will. -/
theorem Deaf.step (hd : s.Deaf) (htriggered : s.triggered = true) (h : s.step? e = some s') : s'.Deaf := by
  cases effect_of_step h with
  | watched hchannel hsubs =>
    rw [Deaf, hchannel, hsubs]
    exact hd
  | signalled _ _ hfresh =>
    rw [hfresh] at htriggered
    cases htriggered
  | subscribed _ hchannel hsubs =>
    intro l hl
    rw [hchannel]
    rcases List.mem_cons.mp (hsubs.mem_iff.mp hl) with rfl | hl
    · exact ⟨rfl, rfl⟩
    · exact hd l hl
  | looked _ _ hchannel _ hlooked =>
    intro l' hl'
    rw [hchannel]
    obtain ⟨l, hl, rfl | rfl⟩ := hlooked l' hl'
    · exact hd _ hl
    · rw [receive_eq, if_pos (hd l hl).1]
      exact hd l hl
  | left i hchannel _ hsubset =>
    intro l hl
    rw [hchannel]
    exact hd l (hsubset hl)

theorem triggered_step (h : s.step? e = some s') : s'.triggered = true ↔ s.triggered = true ∨ e = .trigger := by
  cases effect_of_step h with
  | watched _ _ hsame => simp [hsame]
  | signalled _ _ _ hset => simp [hset]
  | subscribed he _ _ hsame =>
    rw [hsame]
    exact (or_iff_left fun heq => by cases he <;> simp_all).symm
  | looked _ hne _ _ _ hsame => rw [hsame, or_iff_left hne]
  | left i _ _ _ hsame => simp [hsame]

/-! ## Runs -/

variable {events : List Event}

theorem run_append (events more : List Event) : s.run? (events ++ more) = (s.run? events).bind (·.run? more) :=
  List.foldlM_append ..

theorem sound_of_run (hs : s.Sound) (h : s.run? events = some s') : s'.Sound := by
  induction events generalizing s with
  | nil => exact Option.some.inj h ▸ hs
  | cons e events ih =>
    obtain ⟨s₁, hstep, hrun⟩ := Option.bind_eq_some_iff.mp h
    exact ih (hs.step hstep) hrun

theorem triggered_run (h : s.run? events = some s') : s'.triggered = true ↔ s.triggered = true ∨ .trigger ∈ events := by
  induction events generalizing s with
  | nil =>
    obtain rfl := Option.some.inj h
    simp
  | cons e events ih =>
    obtain ⟨s₁, hstep, hrun⟩ := Option.bind_eq_some_iff.mp h
    rw [ih hrun, triggered_step hstep, or_assoc, List.mem_cons, @eq_comm _ e]

theorem reached_of_run (hr : s.Reached) (htriggered : s.triggered = true) (hnone : ∀ e ∈ events, ¬ e.Subscribes)
    (h : s.run? events = some s') : s'.Reached := by
  induction events generalizing s with
  | nil => exact Option.some.inj h ▸ hr
  | cons e events ih =>
    obtain ⟨he, hevents⟩ := List.forall_mem_cons.mp hnone
    obtain ⟨s₁, hstep, hrun⟩ := Option.bind_eq_some_iff.mp h
    exact ih (hr.step htriggered he hstep) ((triggered_step hstep).mpr (Or.inl htriggered)) hevents hrun

theorem deaf_of_run (hd : s.Deaf) (htriggered : s.triggered = true) (h : s.run? events = some s') : s'.Deaf := by
  induction events generalizing s with
  | nil => exact Option.some.inj h ▸ hd
  | cons e events ih =>
    obtain ⟨s₁, hstep, hrun⟩ := Option.bind_eq_some_iff.mp h
    exact ih (hd.step htriggered hstep) ((triggered_step hstep).mpr (Or.inl htriggered)) hrun

/-- In all states of a run in which the signal is given, everybody who is subscribed has it to find or knows of it,
so that his next look informs him: this holds exactly if nobody subscribes after the signal. -/
theorem signal_reaches_everybody_iff (h : start.run? events = some s) :
    (∀ past s', past <+: events → start.run? past = some s' → s'.triggered = true → ∀ l ∈ s'.subscriptions,
      (l.isPending s'.channel = true ∨ l.informed = true) ∧ (l.receive s'.channel).informed = true) ↔
    ∀ before after, events = before ++ .trigger :: after → .serve ∉ after ∧ .accept ∉ after := by
  constructor
  · rintro hreached before after rfl
    have hlate : ∀ e ∈ after, ¬ e.Subscribes := by
      intro e he hsubscribes
      obtain ⟨mid, rest, rfl⟩ := List.append_of_mem he
      -- the state right after this subscription is one of the run
      have hsplit : before ++ .trigger :: (mid ++ e :: rest) = before ++ .trigger :: mid ++ [e] ++ rest := by simp
      rw [hsplit, run_append] at h
      obtain ⟨s₂, hpast, -⟩ := Option.bind_eq_some_iff.mp h
      have hpast' := hpast
      rw [run_append] at hpast'
      obtain ⟨s₁, -, hlast⟩ := Option.bind_eq_some_iff.mp hpast'
      obtain ⟨s₂', hstep, hsame⟩ := Option.bind_eq_some_iff.mp hlast
      obtain rfl : s₂' = s₂ := Option.some.inj hsame
      have htriggered := (triggered_run hpast).mpr (Or.inr (by simp))
      refine not_reached_of_subscribes hsubscribes hstep fun l hl => ?_
      exact (hreached _ _ (hsplit ▸ List.prefix_append ..) hpast htriggered l hl).1
    exact ⟨fun hserve => hlate _ hserve (Or.inl rfl), fun haccept => hlate _ haccept (Or.inr rfl)⟩
  · rintro hlate past s' ⟨future, rfl⟩ hpast htriggered
    have hmem := ((triggered_run hpast).mp htriggered).resolve_left (by simp [start])
    obtain ⟨before, after, rfl⟩ := List.append_of_mem hmem
    obtain ⟨hserve, haccept⟩ := hlate before (after ++ future) (by simp)
    have hnone : ∀ e ∈ after, ¬ e.Subscribes := by
      rintro e he (rfl | rfl)
      · exact hserve (List.mem_append_left _ he)
      · exact haccept (List.mem_append_left _ he)
    rw [run_append] at hpast
    obtain ⟨s₀, hbefore, hrest⟩ := Option.bind_eq_some_iff.mp hpast
    obtain ⟨s₁, hstep, hafter⟩ := Option.bind_eq_some_iff.mp hrest
    have hgiven := (sound_of_run sound_start hbefore).reached_of_trigger hstep
    have hreached := reached_of_run hgiven ((triggered_step hstep).mpr (Or.inr rfl)) hnone hafter
    exact fun l hl => ⟨hreached l hl, informed_receive.mpr (hreached l hl)⟩

/-- The accept loop and two connections, of which one has looked after the signal. -/
def warned : Service := ⟨⟨1, 3⟩, true, true, some ⟨⟨0⟩, false⟩, [⟨⟨0⟩, false⟩, ⟨⟨1⟩, true⟩]⟩

theorem signal_reaches_everybody_early :
    start.run? [.watch, .serve, .accept, .accept, .trigger, .connectionReceives 1] = some warned ∧
    warned.triggered = true ∧ ∀ l ∈ warned.subscriptions,
      (l.isPending warned.channel = true ∨ l.informed = true) ∧ (l.receive warned.channel).informed = true := by
  have hrun : start.run? [.watch, .serve, .accept, .accept, .trigger, .connectionReceives 1] = some warned := rfl
  refine ⟨hrun, rfl, ?_⟩
  refine (signal_reaches_everybody_iff hrun).mpr (fun before after hsplit => ?_) _ _ List.prefix_rfl hrun rfl
  have hfirst : [.watch, .serve, .accept, .accept] ++ .trigger :: [Event.connectionReceives 1] =
      before ++ .trigger :: after := hsplit
  obtain ⟨-, -, rfl⟩ := (List.append_cons_inj_of_notMem (by decide) (by decide)).mp hfirst
  decide

/-- A signal that is given before the accept loop has begun is lost: neither the loop nor the connections that it
goes on to accept ever hear of it. -/
theorem signal_can_be_lost :
    ∃ s, start.run? [.watch, .trigger, .serve, .accept] = some s ∧ s.triggered = true ∧ s.subscriptions.length = 2 ∧
      (∀ l ∈ s.subscriptions, l.isPending s.channel = false ∧ l.informed = false) ∧
      ∀ more s', s.run? more = some s' → ∀ l ∈ s'.subscriptions, l.informed = false := by
  refine ⟨_, rfl, rfl, rfl, by decide, fun more s' hrun l hl => ?_⟩
  have hdeaf : Deaf ⟨⟨0, 2⟩, true, true, some ⟨⟨0⟩, false⟩, [⟨⟨0⟩, false⟩]⟩ := by simp [Deaf, subscriptions]
  exact (deaf_of_run hdeaf rfl hrun l hl).2

end Service
end EntryServer.Shutdown
