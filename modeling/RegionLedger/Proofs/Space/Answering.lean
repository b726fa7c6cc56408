import RegionLedger.Proofs.Space.Writes

/-!
# How a ledger answers

Every operation goes through three phases: it is refused if something stands against it from the
start, then it stores its call stack, then its space acts.  What stands against an operation depends
on the numbers of the known spaces only, not on what is in them.

* `Operation.objection?`, `Ledger.apply_eq` — the three phases.
* `Ledger.exhausts`, `Ledger.storesAll`, `Ledger.Places` — whether call stacks find their places.
* `Ledger.answer`, `Ledger.answers` — the answers to a call, and to several.
-/

namespace RegionLedger

/-- What stands against an operation from the start, given which spaces are known. -/
def Operation.objection? (known : SpaceId → Bool) : Operation → Option LedgerError
  | reserve id .. | commit id .. | uncommit id .. | release id .. | retag id .. =>
      if known id then none else some (.unknownSpace id)
  | map id _ size offset _ _ =>
      if id.isProcess then some .selfMapping
      else if !known id then some (.unknownSpace id)
      else if (endOf? offset size).isNone then some (.region (.invalidRange offset size))
      else none
  | unmap id base size =>
      if id.isProcess then some .selfMapping
      else if !known id then some (.unknownSpace id)
      else if (endOf? base size).isNone || size = 0 then some (.region (.invalidRange base size))
      else none

namespace Ledger

variable {v : Ledger} {op : Operation}

/-- Whether there is a space of the number. -/
def knows (v : Ledger) (id : SpaceId) : Bool := (v.space? id).isSome

/-- The part of an operation after the objections. -/
def carryOut (v : Ledger) (op : Operation) : Except LedgerError Deltas × Ledger :=
  match op.stack? with
  | none => v.onSpace op.target (op.act {})
  | some stack => v.withStack stack fun ref v => v.onSpace op.target (op.act ref)

lemma ifKnown_eq (v : Ledger) (id : SpaceId) (r : Except LedgerError Deltas × Ledger) :
    v.ifKnown id r = if v.knows id = true then r else (.error (.unknownSpace id), v) := by
  rw [ifKnown, knows]
  cases v.space? id <;> rfl

/-- No unknown space acts. -/
lemma onSpace_of_not_knows {id : SpaceId} (h : ¬ v.knows id = true)
    (f : Space → Except RegionError Deltas × Space) :
    v.onSpace id f = (.error (.unknownSpace id), v) := by
  rw [knows, Option.not_isSome_iff_eq_none] at h
  rw [onSpace, h]

/-- **The phases of an operation.** -/
theorem apply_eq (v : Ledger) (op : Operation) : v.apply op =
    match op.objection? v.knows with
    | some e => (.error e, v)
    | none => v.carryOut op := by
  cases op with
  | reserve id start size tag stack =>
      show v.ifKnown id _ = _
      rw [ifKnown_eq, Operation.objection?]
      split_ifs <;> rfl
  | commit id start size tag stack =>
      show v.ifKnown id _ = _
      rw [ifKnown_eq, Operation.objection?]
      split_ifs <;> rfl
  | uncommit id start size stack =>
      show v.uncommit id start size stack = _
      rw [uncommit, ifKnown_eq, Operation.objection?]
      split_ifs with hid hknows hknows
      · rw [carryOut, Operation.stack?, if_pos hid]
        rfl
      · rfl
      · rw [carryOut, Operation.stack?, if_neg hid]
        rfl
      · exact onSpace_of_not_knows hknows _
  | release id start size =>
      show v.release id start size = _
      rw [Operation.objection?]
      split_ifs with hknows
      · rfl
      · exact onSpace_of_not_knows hknows _
  | retag id start size tag =>
      show v.retag id start size tag = _
      rw [Operation.objection?]
      split_ifs with hknows
      · rfl
      · exact onSpace_of_not_knows hknows _
  | map id base size offset tag stack =>
      show v.map id base size offset tag stack = _
      rw [map, ifKnown_eq, Operation.objection?]
      by_cases hid : id.isProcess = true
      · rw [if_pos hid, if_pos hid]
      · rw [if_neg hid, if_neg hid]
        cases hknows : v.knows id with
        | false => rfl
        | true =>
            by_cases hend : (endOf? offset size).isNone = true
            · simp only [hend, if_true, Bool.not_true, Bool.false_eq_true, if_false]
            · simp only [hend, if_true, Bool.not_true, Bool.false_eq_true, if_false]
              rfl
  | unmap id base size =>
      show v.unmap id base size = _
      rw [unmap, ifKnown_eq, Operation.objection?]
      by_cases hid : id.isProcess = true
      · rw [if_pos hid, if_pos hid]
      · rw [if_neg hid, if_neg hid]
        cases hknows : v.knows id with
        | false => rfl
        | true =>
            by_cases hend : base.toNat + size.toNat < UInt64.size
            · by_cases hzero : size = 0
              · rw [endOf?, if_pos hend]
                simp [hzero]
              · simp only [endOf?, hend, if_true, hzero, if_false, Bool.not_true,
                  Bool.false_eq_true, Option.isNone_some, decide_false, Bool.or_false]
                rfl
            · simp [endOf?, hend]

/-! ## Answers -/

/-- Whether the call stack of the operation finds no place. -/
def exhausts (v : Ledger) (op : Operation) : Bool :=
  match (v.apply op).1 with
  | .error (.stack _) => true
  | _ => false

/-- Whether every call stack of the calls finds its place. -/
def storesAll (v : Ledger) : List LedgerCall → Bool
  | [] => true
  | .register name :: calls => storesAll (v.step (.register name)) calls
  | .operation op :: calls => !v.exhausts op && storesAll (v.step (.operation op)) calls

/-- The answer to a call: the number of a new space, or what an operation moved. -/
def answer (v : Ledger) : LedgerCall → Except LedgerError (SpaceId ⊕ Deltas)
  | .register name => (v.register name).map fun new => .inl new.1
  | .operation op => (v.apply op).1.map .inr

/-- The answers to calls, one after the other. -/
def answers (v : Ledger) : List LedgerCall → List (Except LedgerError (SpaceId ⊕ Deltas))
  | [] => []
  | c :: calls => v.answer c :: answers (v.step c) calls

/-- If nothing stands against the operation, its call stack finds a place. -/
def Places (v : Ledger) (op : Operation) : Prop :=
  op.objection? v.knows = none → ∀ stack, op.stack? = some stack →
    ∃ ref callStacks, v.callStacks.push stack = .ok (ref, callStacks)

/-- An operation that is not refused for want of a place finds one. -/
lemma places_of_not_exhausts (hop : v.exhausts op = false) : v.Places op := by
  intro hnone stack hstack
  have happly := v.apply_eq op
  simp only [hnone, carryOut, hstack, withStack] at happly
  cases hpush : v.callStacks.push stack with
  | error e =>
      simp only [hpush] at happly
      rw [exhausts, happly] at hop
      cases hop
  | ok stored => exact ⟨stored.1, stored.2, rfl⟩

/-- An operation whose call stack is stored. -/
lemma apply_of_push (hnone : op.objection? v.knows = none) {stack : CallStack}
    (hstack : op.stack? = some stack) {ref : StackRef} {callStacks : StackStore}
    (hpush : v.callStacks.push stack = .ok (ref, callStacks)) :
    v.apply op = onSpace { v with callStacks } op.target (op.act ref) := by
  have happly := v.apply_eq op
  simpa only [hnone, carryOut, hstack, withStack, hpush] using happly

/-- An operation that stores no call stack. -/
lemma apply_of_stackless (hnone : op.objection? v.knows = none) (hstack : op.stack? = none) :
    v.apply op = v.onSpace op.target (op.act {}) := by
  have happly := v.apply_eq op
  simpa only [hnone, carryOut, hstack] using happly

/-- An operation that something stands against. -/
lemma apply_of_objection {e : LedgerError} (he : op.objection? v.knows = some e) :
    v.apply op = (.error e, v) := by
  have happly := v.apply_eq op
  simpa only [he] using happly

/-- Nothing stood against an operation that is carried out. -/
lemma unopposed_of_apply_ok {v' : Ledger} {d : Deltas} (hok : v.apply op = (.ok d, v')) :
    op.objection? v.knows = none := by
  by_contra hobjection
  obtain ⟨e, he⟩ := Option.ne_none_iff_exists'.mp hobjection
  rw [apply_of_objection he] at hok
  cases hok

end Ledger

end RegionLedger
