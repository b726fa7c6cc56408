import RegionLedger.Proofs.Space.Answering
import RegionLedger.Proofs.Tracker.Recording

/-!
# Contention

A tracker in best-effort mode gives an update up when it finds the lock held.  Nothing else is lost
that way: the ledger behind the lock is the one that the other calls lead to, every caller is
answered as that ledger answers, and the count of lost updates is the number of callers that were
told so.

* `TrackerCall.Heard`, `Tracker.heard` — the calls that a ledger without a lock would be given.
* `Tracker.answer`, `Tracker.owed` — what a call is answered, and what it should be.
* `Tracker.dropped_run` — the count of lost updates.
* `Tracker.loses_held_attempts_only` — all of it, for every pattern of contention.
-/

namespace RegionLedger

namespace TrackerCall

/-- The call finds the lock held by another caller.  A registration waits until it is free. -/
def meetsHeld : TrackerCall → Bool
  | register _ => false
  | record held _ => held

/-- The call as it reaches a ledger. -/
def unlocked : TrackerCall → LedgerCall
  | register name => .register name
  | record _ op => .operation op

/-- The call should reach the ledger: it registers a space, or it is an attempt that met no held lock
while tracking is on. -/
def Heard (level : Level) : TrackerCall → Prop
  | register _ => True
  | record held _ => level ≠ .off ∧ held = false

instance (level : Level) : DecidablePred (Heard level)
  | register _ => .isTrue trivial
  | record _ _ => inferInstanceAs (Decidable (_ ∧ _))

end TrackerCall

namespace Tracker

/-- The registrations, and the attempts that met no held lock; none of the attempts while tracking is
off. -/
def heard (level : Level) (calls : List TrackerCall) : List LedgerCall :=
  (calls.filter fun c => c.Heard level).map TrackerCall.unlocked

/-- Attempts meet a held lock in best-effort mode or with tracking off only: in any other case the
caller waits until the lock is free. -/
def Scheduled (config : Config) (calls : List TrackerCall) : Prop :=
  config.bestEffort = true ∨ config.level = .off ∨ ∀ c ∈ calls, c.meetsHeld = false

instance (config : Config) : DecidablePred (Scheduled config) :=
  fun _ => inferInstanceAs (Decidable (_ ∨ _ ∨ _))

/-! ## Answers -/

/-- The answer to a call: the number of a new space, or what an attempt returns. -/
def answer (t : Tracker) : TrackerCall → Except RecordError (SpaceId ⊕ Deltas)
  | .register name => ((t.register name).mapError .rejected).map fun new => .inl new.1
  | .record held op => (t.record held op).1.map .inr

/-- The answers to calls, one after the other. -/
def answers (t : Tracker) : List TrackerCall → List (Except RecordError (SpaceId ⊕ Deltas))
  | [] => []
  | c :: calls => t.answer c :: answers (t.step c) calls

/-- The caller is told that the update was given up. -/
def isContended : Except RecordError (SpaceId ⊕ Deltas) → Bool
  | .error .contended => true
  | _ => false

/-- The answer that a call should get, if the ledger is `v`: no change while tracking is off, a
refusal if the lock is held, and else what the ledger answers. -/
def owed (level : Level) (v : Ledger) (c : TrackerCall) : Except RecordError (SpaceId ⊕ Deltas) :=
  match c with
  | .register _ => (v.answer c.unlocked).mapError .rejected
  | .record held _ =>
      if level = .off then .ok (.inr ∅)
      else if held then .error .contended
      else (v.answer c.unlocked).mapError .rejected

variable {config : Config} {t : Tracker} {c : TrackerCall} {calls : List TrackerCall}

lemma Scheduled.mono {before : List TrackerCall} (h : Scheduled config calls)
    (hbefore : before <+: calls) : Scheduled config before :=
  h.imp id (Or.imp id fun hfree c hc => hfree c (hbefore.subset hc))

/-- In a schedule a held lock loses every attempt that meets it. -/
lemma Scheduled.lost_of_held (h : Scheduled config calls) {held : Bool} {op : Operation}
    (hc : TrackerCall.record held op ∈ calls) (hon : config.level ≠ .off) :
    (config.bestEffort && held) = held := by
  rcases h with heffort | hoff | hfree
  · rw [heffort, Bool.true_and]
  · exact absurd hoff hon
  · have hheld : held = false := hfree _ hc
    rw [hheld, Bool.and_false]

/-- What a call hands on to the ledger is the call itself, if it should reach the ledger. -/
lemma Scheduled.carries_eq (h : Scheduled config calls) (hc : c ∈ calls) :
    carries config.level config.bestEffort c =
      if c.Heard config.level then [c.unlocked] else [] := by
  cases c with
  | register name => rfl
  | record held op =>
      by_cases hoff : config.level = .off
      · rw [carries, if_pos (.inl hoff), if_neg fun hheard => hheard.1 hoff]
      · have hlost := h.lost_of_held hc hoff
        cases held with
        | false => rw [carries, if_neg (by simp [hoff]), if_pos ⟨hoff, rfl⟩]; rfl
        | true => rw [carries, if_pos (.inr hlost), if_neg fun hheard => absurd hheard.2 (by decide)]

/-- **The calls that reach the ledger** are those that should. -/
lemma Scheduled.carried_eq (h : Scheduled config calls) :
    (create config).carried calls = heard config.level calls := by
  have hall : ∀ later : List TrackerCall, (∀ c ∈ later, c ∈ calls) →
      (create config).carried later = heard config.level later := by
    intro later hlater
    induction later with
    | nil => rfl
    | cons c later ih =>
        have hrest := ih fun c' hc' => hlater c' (List.mem_cons_of_mem _ hc')
        have hfirst := h.carries_eq (hlater c List.mem_cons_self)
        have hcons : (create config).carried (c :: later) =
            carries config.level config.bestEffort c ++ (create config).carried later :=
          List.flatMap_cons
        rw [hcons, hrest, hfirst, heard, heard, List.filter_cons]
        by_cases hheard : c.Heard config.level <;> simp [hheard]
  exact hall calls fun _ hc => hc

/-- The ledger of a tracker after a schedule of calls. -/
lemma Scheduled.ledger_run (h : Scheduled config calls) :
    ((create config).run calls).ledger = (Ledger.create config).run (heard config.level calls) := by
  rw [((create config).run_carried calls .process).1, h.carried_eq]
  rfl

/-- **A call gets the answer that it should**, whatever was lost before. -/
lemma Scheduled.answer_eq (h : Scheduled config calls) (hc : c ∈ calls)
    (hlevel : t.level = config.level) (heffort : t.bestEffort = config.bestEffort) :
    t.answer c = owed config.level t.ledger c := by
  cases c with
  | register name =>
      rw [answer, owed, register]
      show _ = ((t.ledger.register name).map fun new => Sum.inl new.1).mapError RecordError.rejected
      cases t.ledger.register name <;> rfl
  | record held op =>
      rw [answer, owed, record, hlevel, heffort]
      split_ifs with hoff hlost hheld hheld
      · rfl
      · rfl
      · rw [h.lost_of_held hc hoff] at hlost
        exact absurd hlost hheld
      · rw [h.lost_of_held hc hoff] at hlost
        exact absurd hheld hlost
      · show ((t.ledger.apply op).1.mapError RecordError.rejected).map Sum.inr =
          ((t.ledger.apply op).1.map Sum.inr).mapError RecordError.rejected
        cases (t.ledger.apply op).1 <;> rfl

/-! ## Lost updates -/

/-- A call is counted as lost exactly if its caller is told so. -/
lemma dropped_step (t : Tracker) (c : TrackerCall) :
    (t.step c).dropped = t.dropped + UInt64.ofNat (isContended (t.answer c)).toNat := by
  have hnone : t.dropped = t.dropped + UInt64.ofNat false.toNat := (UInt64.add_zero _).symm
  cases c with
  | register name =>
      rw [step, answer, register]
      cases t.ledger.register name <;> exact hnone
  | record held op =>
      rw [step, answer, record]
      split_ifs
      · exact hnone
      · rfl
      · show t.dropped = t.dropped + UInt64.ofNat
          (isContended (((t.ledger.apply op).1.mapError RecordError.rejected).map Sum.inr)).toNat
        cases (t.ledger.apply op).1 <;> exact hnone

/-- **The count of lost updates** is the number of callers that were told so, as a word. -/
theorem dropped_run (t : Tracker) (calls : List TrackerCall) :
    (t.run calls).dropped = t.dropped + UInt64.ofNat ((t.answers calls).countP isContended) := by
  induction calls generalizing t with
  | nil => exact (UInt64.add_zero _).symm
  | cons c calls ih =>
      have hrun : t.run (c :: calls) = (t.step c).run calls := rfl
      have hcount : (t.answers (c :: calls)).countP isContended =
          (isContended (t.answer c)).toNat + ((t.step c).answers calls).countP isContended := by
        rw [answers, List.countP_cons, Nat.add_comm]
        cases isContended (t.answer c) <;> rfl
      rw [hrun, ih, dropped_step, hcount, UInt64.ofNat_add, UInt64.add_assoc]

/-- **Best-effort recording loses only what it counts.**  Take any settings and any calls of the
tracker, with the lock held during any of the attempts, as long as callers that wait find it free in
the end.  The ledger is then the one that a new ledger becomes by the same registrations and by just
the attempts that met no held lock, and by none of them with tracking off.  Each call is answered as
that ledger answers, or by a refusal if the lock was held, or by no change with tracking off.  As long
as there are less than `2 ^ 64` such refusals, the count of lost updates is their number, and a
snapshot is approximate exactly if there were any. -/
theorem loses_held_attempts_only (config : Config) (calls : List TrackerCall)
    (h : Scheduled config calls) :
    ((create config).run calls).ledger = (Ledger.create config).run (heard config.level calls) ∧
    (∀ before c, before ++ [c] <+: calls → ((create config).run before).answer c =
      owed config.level ((Ledger.create config).run (heard config.level before)) c) ∧
    (((create config).answers calls).countP isContended < 2 ^ 64 →
      ((create config).run calls).dropped.toNat =
          ((create config).answers calls).countP isContended ∧
        (((create config).run calls).snapshot.isApproximate = true ↔
          0 < ((create config).answers calls).countP isContended)) := by
  refine ⟨h.ledger_run, ?_, ?_⟩
  · intro before c hstart
    have hbefore : before <+: calls := (List.prefix_append _ _).trans hstart
    have hc : c ∈ calls := hstart.subset (List.mem_append_right _ List.mem_cons_self)
    obtain ⟨hlevel, heffort⟩ := (create config).settings_run before
    rw [h.answer_eq hc hlevel heffort, (h.mono hbefore).ledger_run]
  · intro hfew
    have hdropped : ((create config).run calls).dropped.toNat =
        ((create config).answers calls).countP isContended := by
      have hword : ((create config).run calls).dropped =
          UInt64.ofNat (((create config).answers calls).countP isContended) :=
        (dropped_run _ _).trans (UInt64.zero_add _)
      rw [hword]
      exact UInt64.toNat_ofNat_of_lt' hfew
    refine ⟨hdropped, ?_⟩
    rw [← hdropped, Snapshot.isApproximate, decide_eq_true_iff, UInt64.lt_iff_toNat_lt]
    rfl

/-- Two callers at once: the second reservation and the release meet a held lock, and the commit is
refused by the ledger. -/
def rushCalls : List TrackerCall :=
  [.record false (.reserve .process 0x1000 0x4000 ⟨7⟩ ⟨[0xa1]⟩),
    .record true (.reserve .process 0x8000 0x1000 ⟨7⟩ ⟨[0xb2]⟩), .register "device",
    .record false (.commit ⟨2⟩ 0 0x1000 ⟨8⟩ ⟨[0xc3]⟩), .record true (.release .process 0x1000 0x1000),
    .record false (.commit .process 0x1000 0x1000 ⟨8⟩ ⟨[0xd4]⟩)]

/-- In the rush two updates are lost; what is left is as if they had never been attempted. -/
theorem rush_loses_two :
    let t := (create { bestEffort := true }).run rushCalls
    Scheduled { bestEffort := true } rushCalls ∧
      t.ledger = (Ledger.create { bestEffort := true }).run
        [.operation (.reserve .process 0x1000 0x4000 ⟨7⟩ ⟨[0xa1]⟩), .register "device",
          .operation (.commit ⟨2⟩ 0 0x1000 ⟨8⟩ ⟨[0xc3]⟩),
          .operation (.commit .process 0x1000 0x1000 ⟨8⟩ ⟨[0xd4]⟩)] ∧
      t.dropped = 2 ∧ t.snapshot.isApproximate = true := by
  have hscheduled : Scheduled { bestEffort := true } rushCalls := .inl rfl
  obtain ⟨hledger, _, hlost⟩ :=
    loses_held_attempts_only { bestEffort := true } rushCalls hscheduled
  have hcount : ((create { bestEffort := true }).answers rushCalls).countP isContended = 2 := by
    decide +kernel
  obtain ⟨hdropped, happroximate⟩ := hlost (by rw [hcount]; decide)
  refine ⟨hscheduled, hledger, UInt64.toNat_inj.mp (hdropped.trans hcount), happroximate.mpr ?_⟩
  rw [hcount]
  exact Nat.two_pos

end Tracker

end RegionLedger
