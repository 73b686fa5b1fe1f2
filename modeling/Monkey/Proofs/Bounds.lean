import Monkey.Proofs.Bodies
import Monkey.Proofs.Isolation

/-!
# Any code keeps to the arrays

Code that no compiler wrote may pop what is not its own, jump into the middle of an instruction or
return when it pleases. It still cannot make the machine reach outside of an array.

The actions of a machine are total: where a place does not exist, they read null or take fewer
values. `Guarded` actions are the same ones with that tolerance taken out. They have no result at
all where an index or a slice is out of range, where a difference would be negative, or where a
return finds no place for its value. `Contained` is the invariant under which the two agree, and
every instruction keeps it, the ones that end in a fault too.
-/

namespace Monkey

/-- What a call needs to know of a function: its arguments fit into its slots, and these are few
enough to be counted from any slot of a stack. -/
def Template.Bounded (b : Template) : Prop :=
  b.parameters ≤ b.locals ∧ b.locals ≤ 0x100000000

instance : DecidablePred Template.Bounded :=
  fun b => inferInstanceAs (Decidable (b.parameters ≤ b.locals ∧ b.locals ≤ 0x100000000))

/-- All functions in a value are bounded, at whatever depth. -/
abbrev ValueOf.Bounded (v : Value) : Prop :=
  v.Each Template.Bounded

/-! ## Actions that may have no result -/

/-- An action that has no result where it would leave the arrays. -/
def Guarded (α : Type) : Type :=
  Machine → Option (EStateM.Result Fault Machine α)

namespace Guarded

instance : Monad Guarded where
  pure a m := some (.ok a m)
  bind x f m :=
    match x m with
    | none => none
    | some (.ok a m) => f a m
    | some (.error e m) => some (.error e m)

/-- An action that reads no place without asking whether it exists. -/
def free {α : Type} (x : Exec α) : Guarded α :=
  fun m => some (x m)

/-- A difference that is not negative. -/
def minus? (a b : Nat) : Option Nat :=
  if b ≤ a then some (a - b) else none

/-- The values between two places of an array, which have to be in order. -/
def slice? (xs : Array Value) (start stop : Nat) : Option (List Value) :=
  if start ≤ stop ∧ stop ≤ xs.size then some (xs.extract start stop).toList else none

def pop : Guarded Value := fun m =>
  if m.top = 0 then some (.error .stackUnderflow m)
  else do
    let v ← m.stack[m.top - 1]?
    some (.ok v { m with top := m.top - 1 })

def take (count : Nat) : Guarded (List Value) := fun m =>
  if count ≤ m.top then do
    let vs ← slice? m.stack (m.top - count) m.top
    some (.ok vs { m with top := m.top - count })
  else some (.error .stackUnderflow m)

def storeGlobal (index : Nat) : Guarded Unit := do
  let v ← pop
  fun m =>
    if m.limits.globalsSize ≤ index then
      some (.error (.globalsOverflow index m.limits.globalsSize) m)
    else do
      let _ ← (Machine.growGlobals m.globals index)[index]?
      some (.ok () { m with globals := Machine.storeAt m.globals index v })

def enter (id : Identity) (body : Template) (captured : List Value) (arguments : Nat) :
    Guarded Unit := fun m =>
  if arguments ≠ body.parameters then some (.error (.argumentCount body.parameters arguments) m)
  else if m.limits.maxFrames ≤ m.callers.size + 1 then
    some (.error (.frameOverflow m.limits.maxFrames) m)
  else do
    let base ← minus? m.top arguments
    let top := base + body.locals
    if m.stack.size < top then some (.error m.overflow m)
    else do
      let cleared ← slice? m.stack m.top top
      some (.ok () { m with
        stack := Machine.clearSlots m.stack m.top cleared.length
        top
        frame := { id, body, captured, base }
        callers := m.callers.push m.frame })

/-- The answer of a builtin goes to the place of the callee. -/
def answer (function : Builtin) (arguments : List Value) (callee : Nat) : Exec Unit := do
  Machine.print function (function.printed arguments (← get).console.address)
  let id ← Machine.newIdentity
  modify fun m => { m with top := callee }
  Machine.push (function.apply id arguments)

def callBuiltin (function : Builtin) (count : Nat) : Guarded Unit := fun m => do
  let start ← minus? m.top count
  let arguments ← slice? m.stack start m.top
  let callee ← minus? start 1
  some (answer function arguments callee m)

def call (count : Nat) : Guarded Unit := fun m =>
  if m.top < count + 1 then some (.error .stackUnderflow m)
  else do
    match ← m.stack[m.top - (count + 1)]? with
    | .closure id body captured => enter id body captured count m
    | .builtin function => callBuiltin function count m
    | v => some (.error (.notAFunction v.kind) m)

/-- A call without a place below its slots has nowhere to return to. -/
def leave (v : Value) : Guarded Unit := fun m =>
  match m.callers.back? with
  | none => some (Machine.leave v m)
  | some caller => do
      let below ← minus? m.frame.base 1
      some (Machine.push v { m with frame := caller, callers := m.callers.pop, top := below })

def applyBinary (op : BinaryOperator) : Guarded Unit := do
  let right ← pop
  let left ← pop
  let v ← free (Machine.check (ValueOf.binary op left right))
  free (Machine.push v)

def compare (wanted : Bool) : Guarded Unit := do
  let right ← pop
  let left ← pop
  free (Machine.push (.bool (left.identical right == wanted)))

def storeLocal (slot : Nat) : Guarded Unit := fun m =>
  (do let v ← pop; free (Machine.setSlot (m.frame.base + slot) v) : Guarded Unit) m

def makeClosure (index count : Nat) : Guarded Unit := fun m =>
  match m.constants[index]? with
  | some (.template _ body) =>
      (do let captured ← take count
          let id ← free Machine.newIdentity
          free (Machine.push (.closure id body captured)) : Guarded Unit) m
  | _ => some (.error (.invalidConstant index) m)

/-- The effect of an instruction. -/
def execute : Instruction → Guarded Unit
  | .add => applyBinary .add
  | .subtract => applyBinary .subtract
  | .multiply => applyBinary .multiply
  | .divide => applyBinary .divide
  | .greater => applyBinary .greater
  | .equal => compare true
  | .notEqual => compare false
  | .pop => do
      let _ ← pop
      pure ()
  | .negate => do
      let v ← pop
      let w ← free (Machine.check v.negate)
      free (Machine.push w)
  | .not => do
      let v ← pop
      free (Machine.push (.bool !v.isTruthy))
  | .jumpUnless target => do
      let condition ← pop
      if condition.isTruthy then pure () else free (Machine.jumpTo target)
  | .setGlobal index => storeGlobal index
  | .array count => do
      let elements ← take count
      let id ← free Machine.newIdentity
      free (Machine.push (.array id elements))
  | .hash count => do
      let vs ← take count
      let entries ← free (Machine.check (ValueOf.collectEntries [] vs))
      let id ← free Machine.newIdentity
      free (Machine.push (.hash id entries))
  | .index => do
      let position ← pop
      let container ← pop
      let v ← free (Machine.check (container.atIndex position))
      free (Machine.push v)
  | .call arguments => call arguments
  | .returnValue => do
      let v ← pop
      leave v
  | .returnNull => leave .null
  | .setLocal slot => storeLocal slot
  | .closure template captured => makeClosure template captured
  | i => free (Machine.execute i)

/-- The operand of some width at an offset, if all of its bytes are there. -/
def operandAt? (code : Code) (offset : Nat) : Nat → Option Nat
  | 0 => some 0
  | width + 1 => do
      let high ← operandAt? code offset width
      let low ← code[offset + width]?
      some (256 * high + low.toNat)

/-- The instruction at an offset and the offset after it. -/
def fetch (code : Code) (ip : Nat) : Option (Except DecodeError (Option (Instruction × Nat))) :=
  match code[ip]? with
  | none => some (.ok none)
  | some byte =>
      match Opcode.ofByte? byte with
      | none => some (.error (.undefinedOpcode byte))
      | some op => do
          let left ← minus? code.size ip
          let available ← minus? left 1
          if available < op.operandSize then some (.error (.truncated op available))
          else
            match op.widths with
            | [] => some (.ok (some (Instruction.ofOpcode 0 0 op, ip + op.size)))
            | width :: widths => do
                let a ← operandAt? code (ip + 1) width
                let b ← operandAt? code (ip + 1 + width) (widths.headD 0)
                some (.ok (some (Instruction.ofOpcode a b op, ip + op.size)))

/-- A step that has no outcome where it would leave the arrays. -/
def step (m : Machine) : Option Progress := do
  match ← fetch m.frame.body.code m.frame.ip with
  | .error cause => some (.faulted (.badInstruction m.frame.ip cause) m)
  | .ok none => some (.halted m)
  | .ok (some (i, next)) =>
      let m := m.advance next
      match m.exceedsLimit with
      | some limit => some (.faulted (.stepLimit limit) m)
      | none => (execute i m).map Machine.settle

end Guarded

/-! ## The invariant -/

namespace Machine

/-- The machine keeps to its limits and to the arrays, and it holds bounded functions only. The
frame of the top level, which is the first one, has nothing below it. -/
structure Contained (l : Limits) (size : Nat) (m : Machine) : Prop where
  limits : m.limits = l
  stack : m.stack.size = l.stackSize
  top : m.top ≤ m.stack.size
  depth : m.callers.size + 1 ≤ max 1 l.maxFrames
  globals : m.globals.size ≤ max size l.globalsSize
  base : m.callers.size ≠ 0 → 1 ≤ m.frame.base ∧ m.frame.base ≤ m.stack.size
  bases : ∀ i f, i ≠ 0 → m.callers[i]? = some f → 1 ≤ f.base ∧ f.base ≤ m.stack.size
  closure : m.frame.closure.Bounded
  closures : ∀ f ∈ m.callers, f.closure.Bounded
  pool : ∀ v ∈ m.constants, v.Bounded
  slots : ∀ v ∈ m.stack, v.Bounded
  stored : ∀ v ∈ m.globals, v.Bounded

variable {l : Limits} {size : Nat} {m : Machine}

theorem Contained.withStack (hm : m.Contained l size) {stack : Array Value} {top : Nat}
    (hsize : stack.size = m.stack.size) (hslots : ∀ v ∈ stack, v.Bounded)
    (htop : top ≤ m.stack.size) :
    { m with stack, top }.Contained l size :=
  { hm with
    stack := hsize.trans hm.stack
    top := hsize.symm ▸ htop
    base := fun hne => hsize.symm ▸ hm.base hne
    bases := fun i f hi hf => hsize.symm ▸ hm.bases i f hi hf
    slots := hslots }

theorem Contained.set (hm : m.Contained l size) {i top : Nat} {v : Value} (hi : i < m.stack.size)
    (hv : v.Bounded) (htop : top ≤ m.stack.size) :
    { m with stack := m.stack.set i v hi, top }.Contained l size := by
  refine hm.withStack (Array.size_set hi) (fun w hw => ?_) htop
  rcases Array.mem_or_eq_of_mem_set hw with hw | rfl
  · exact hm.slots w hw
  · exact hv

theorem Contained.lower (hm : m.Contained l size) (top : Nat) (h : top ≤ m.top) :
    { m with top }.Contained l size :=
  { hm with top := h.trans hm.top }

theorem Contained.store (hm : m.Contained l size) {index : Nat} {v : Value} (hv : v.Bounded)
    (hindex : index < l.globalsSize) :
    { m with globals := storeAt m.globals index v }.Contained l size := by
  refine { hm with globals := ?_, stored := fun w (hw : w ∈ storeAt m.globals index v) => ?_ }
  · have hglobals := hm.globals
    rw [size_storeAt]
    omega
  · rcases Array.mem_or_eq_of_mem_setIfInBounds hw with hw | rfl
    · rcases Array.mem_append.1 hw with hw | hw
      · exact hm.stored w hw
      · rw [(Array.mem_replicate.1 hw).2]
        exact ValueOf.each_null
    · exact hv

theorem mem_clearSlots {stack : Array Value} {start count : Nat} {v : Value}
    (h : v ∈ clearSlots stack start count) : v ∈ stack ∨ v = .null := by
  induction count generalizing stack start with
  | zero => exact .inl h
  | succ count ih =>
      rcases ih h with h | h
      · exact Array.mem_or_eq_of_mem_setIfInBounds h
      · exact .inr h

theorem Contained.clear (hm : m.Contained l size) (count : Nat) {top : Nat}
    (htop : top ≤ m.stack.size) :
    { m with stack := clearSlots m.stack m.top count, top }.Contained l size := by
  refine hm.withStack (size_clearSlots _ _ _) (fun v hv => ?_) htop
  rcases mem_clearSlots hv with hv | rfl
  · exact hm.slots v hv
  · exact ValueOf.each_null

/-- The frame that waits is either that of the top level, or one with something below it. -/
theorem Contained.enter (hm : m.Contained l size) {f : Frame} (hclosure : f.closure.Bounded)
    (hbase : 1 ≤ f.base ∧ f.base ≤ m.stack.size) (hdepth : m.callers.size + 1 < l.maxFrames) :
    { m with frame := f, callers := m.callers.push m.frame }.Contained l size := by
  refine { hm with
    depth := ?_
    base := fun _ => hbase
    bases := fun i g hi hg => ?_
    closure := hclosure
    closures := fun g hg => ?_ }
  · rw [Array.size_push]
    omega
  · rw [Array.getElem?_push] at hg
    split at hg
    · next heq =>
        cases hg
        exact hm.base (heq ▸ hi)
    · exact hm.bases i g hi hg
  · rcases Array.mem_push.1 hg with hg | rfl
    · exact hm.closures g hg
    · exact hm.closure

theorem Contained.back (hm : m.Contained l size) {callers : Array Frame} {caller : Frame}
    (hcallers : m.callers = callers.push caller) (top : Nat) (htop : top ≤ m.stack.size) :
    { m with frame := caller, callers, top }.Contained l size := by
  have hdepth := hm.depth
  have hbases := hm.bases
  have hclosures := hm.closures
  rw [hcallers] at hdepth hbases hclosures
  refine { hm with
    top := htop
    depth := ?_
    base := fun hne => hbases callers.size caller hne Array.getElem?_push_size
    bases := fun i f hi hf => ?_
    closure := hclosures caller Array.mem_push_self
    closures := fun f hf => hclosures f (Array.mem_push.2 (.inl hf)) }
  · rw [Array.size_push] at hdepth
    exact (Nat.le_succ _).trans hdepth
  · have hf : callers[i]? = some f := hf
    refine hbases i f hi ?_
    rw [Array.getElem?_push, if_neg (Nat.ne_of_lt (Array.getElem?_eq_some_iff.1 hf).1)]
    exact hf

end Machine

namespace Guarded

variable {l : Limits} {size : Nat} {α β : Type} {m m₁ : Machine}

/-- From this machine a guarded action has the result of the tolerant one. The invariant holds
after it, and `Q` of what it returns. -/
def AgreesAt (l : Limits) (size : Nat) (Q : α → Prop) (x : Guarded α) (y : Exec α)
    (m : Machine) : Prop :=
  x m = some (y m) ∧
    match y m with
    | .ok a m₁ => m₁.Contained l size ∧ Q a
    | .error _ m₁ => m₁.Contained l size

def Agrees (l : Limits) (size : Nat) (Q : α → Prop) (x : Guarded α) (y : Exec α) : Prop :=
  ∀ m, m.Contained l size → AgreesAt l size Q x y m

variable {Q : α → Prop} {R : β → Prop} {x : Guarded α} {y : Exec α}

theorem agreesAt_ok {a : α} (hx : x m = some (.ok a m₁)) (hy : y m = .ok a m₁)
    (hm₁ : m₁.Contained l size) (ha : Q a) : AgreesAt l size Q x y m := by
  rw [AgreesAt, hx, hy]
  exact ⟨rfl, hm₁, ha⟩

theorem agreesAt_error {f : Fault} (hx : x m = some (.error f m₁)) (hy : y m = .error f m₁)
    (hm₁ : m₁.Contained l size) : AgreesAt l size Q x y m := by
  rw [AgreesAt, hx, hy]
  exact ⟨rfl, hm₁⟩

theorem AgreesAt.bind {f : α → Guarded β} {g : α → Exec β} (hx : AgreesAt l size Q x y m)
    (hf : ∀ a, Q a → Agrees l size R (f a) (g a)) :
    AgreesAt l size R (x >>= f) (y >>= g) m := by
  obtain ⟨heq, hpost⟩ := hx
  cases h : y m with
  | ok a m₁ =>
      rw [h] at heq hpost
      have hnext := hf a hpost.2 m₁ hpost.1
      have hbind : (x >>= f) m = f a m₁ := by
        show (match x m with | none => none | some (.ok a m) => f a m | some (.error e m) => _) = _
        rw [heq]
      rw [AgreesAt, hbind, Machine.bind_ok h]
      exact hnext
  | error e m₁ =>
      rw [h] at heq hpost
      refine agreesAt_error ?_ (Machine.bind_error h) hpost
      show (match x m with | none => none | some (.ok a m) => f a m | some (.error e m) => _) = _
      rw [heq]

theorem Agrees.bind {f : α → Guarded β} {g : α → Exec β} (hx : Agrees l size Q x y)
    (hf : ∀ a, Q a → Agrees l size R (f a) (g a)) :
    Agrees l size R (x >>= f) (y >>= g) :=
  fun m hm => (hx m hm).bind hf

theorem agrees_pure {a : α} (ha : Q a) : Agrees l size Q (pure a) (pure a) :=
  fun _ hm => ⟨rfl, hm, ha⟩

theorem agrees_fail (f : Fault) : Agrees l size Q (free (Machine.fail f)) (Machine.fail f) :=
  fun _ hm => ⟨rfl, hm⟩

theorem agrees_check {a : Except Fault α} (h : ∀ b, a = .ok b → Q b) :
    Agrees l size Q (free (Machine.check a)) (Machine.check a) := by
  cases a with
  | ok a => exact fun _ hm => ⟨rfl, hm, h a rfl⟩
  | error f => exact agrees_fail f

/-! ## The stack -/

theorem agrees_push {v : Value} (hv : v.Bounded) :
    Agrees l size (fun _ => True) (free (Machine.push v)) (Machine.push v) := by
  intro m hm
  by_cases h : m.top < m.stack.size
  · have hpush : Machine.push v m =
        .ok () { m with stack := m.stack.set m.top v h, top := m.top + 1 } := by
      rw [Machine.push, dif_pos h]
    exact agreesAt_ok (congrArg some hpush) hpush (hm.set h hv h) trivial
  · have hpush : Machine.push v m = .error m.overflow m := by
      rw [Machine.push, dif_neg h]
    exact agreesAt_error (congrArg some hpush) hpush hm

theorem agrees_setSlot (i : Nat) {v : Value} (hv : v.Bounded) :
    Agrees l size (fun _ => True) (free (Machine.setSlot i v)) (Machine.setSlot i v) := by
  intro m hm
  by_cases h : i < m.stack.size
  · have hset : Machine.setSlot i v m = .ok () { m with stack := m.stack.set i v h } := by
      rw [Machine.setSlot, dif_pos h]
    exact agreesAt_ok (congrArg some hset) hset (hm.set h hv hm.top) trivial
  · have hset : Machine.setSlot i v m = .error m.overflow m := by
      rw [Machine.setSlot, dif_neg h]
    exact agreesAt_error (congrArg some hset) hset hm

theorem agrees_pop : Agrees l size ValueOf.Bounded pop Machine.pop := by
  intro m hm
  have htop := hm.top
  by_cases h : m.top = 0
  · exact agreesAt_error (by rw [pop, if_pos h]) (by rw [Machine.pop, if_pos h]) hm
  · obtain ⟨v, hv⟩ : ∃ v, m.stack[m.top - 1]? = some v :=
      ⟨_, Array.getElem?_eq_getElem (by omega)⟩
    have hslot : m.slot (m.top - 1) = v := by
      rw [Machine.slot, hv]
      rfl
    refine agreesAt_ok (by rw [pop, if_neg h, hv]; rfl) (by rw [Machine.pop, if_neg h, hslot])
      (hm.lower _ (Nat.sub_le _ _)) ?_
    exact hm.slots v (Array.mem_of_getElem? hv)

theorem mem_of_mem_slice {xs : Array Value} {start stop : Nat} {v : Value}
    (h : v ∈ (xs.extract start stop).toList) : v ∈ xs := by
  obtain ⟨k, hk, rfl⟩ := Array.mem_extract_iff_getElem.1 (Array.mem_toList_iff.1 h)
  exact Array.getElem_mem _

theorem slice?_eq {xs : Array Value} {start stop : Nat} (h : start ≤ stop) (h' : stop ≤ xs.size) :
    slice? xs start stop = some (xs.extract start stop).toList :=
  if_pos ⟨h, h'⟩

theorem minus?_eq {a b : Nat} (h : b ≤ a) : minus? a b = some (a - b) :=
  if_pos h

theorem agrees_take (count : Nat) :
    Agrees l size (fun vs => ∀ v ∈ vs, v.Bounded) (take count) (Machine.take count) := by
  intro m hm
  by_cases h : count ≤ m.top
  · refine agreesAt_ok (by rw [take, if_pos h, slice?_eq (Nat.sub_le _ _) hm.top]; rfl)
      (by rw [Machine.take, if_pos h]) (hm.lower _ (Nat.sub_le _ _)) fun v hv => ?_
    exact hm.slots v (mem_of_mem_slice hv)
  · exact agreesAt_error (by rw [take, if_neg h]) (by rw [Machine.take, if_neg h]) hm

theorem agrees_storeGlobal (index : Nat) :
    Agrees l size (fun _ => True) (storeGlobal index) (Machine.storeGlobal index) := by
  refine agrees_pop.bind fun v hv m hm => ?_
  by_cases h : m.limits.globalsSize ≤ index
  · refine agreesAt_error (by rw [if_pos h]) ?_ hm
    rw [Machine.bind_get, if_pos h]
    rfl
  · have hstored := hm.store hv (hm.limits ▸ Nat.not_le.1 h)
    obtain ⟨old, hold⟩ : ∃ old, (Machine.growGlobals m.globals index)[index]? = some old := by
      have hsize := Machine.size_storeAt m.globals index v
      rw [Machine.storeAt, Array.size_setIfInBounds] at hsize
      exact ⟨_, Array.getElem?_eq_getElem (by omega)⟩
    refine agreesAt_ok (a := ()) ?_ ?_ hstored trivial
    · rw [if_neg h, hold]
      rfl
    · rw [Machine.bind_get, if_neg h]
      rfl

/-! ## Calls and returns -/

/-- The one place where it matters that arguments fit into the slots of a function. -/
theorem agreesAt_enter {id : Identity} {body : Template} {captured : List Value} {n : Nat}
    (hclosure : (ValueOf.closure id body captured : Value).Bounded) (hn : n + 1 ≤ m.top)
    (hm : m.Contained l size) : AgreesAt l size (fun _ => True) (enter id body captured n)
      (Machine.enter id body captured n) m := by
  have htop := hm.top
  have hfits := ((ValueOf.each_closure body).1 hclosure).1.1
  by_cases hargs : n = body.parameters
  · have hargs' : ¬n ≠ body.parameters := not_not.2 hargs
    by_cases hdepth : m.limits.maxFrames ≤ m.callers.size + 1
    · exact agreesAt_error (by rw [enter, if_neg hargs', if_pos hdepth])
        (by rw [Machine.enter, if_neg hargs', if_pos hdepth]) hm
    · have hminus : minus? m.top n = some (m.top - n) := minus?_eq (by omega)
      by_cases hsize : m.stack.size < m.top - n + body.locals
      · refine agreesAt_error ?_
          (by rw [Machine.enter, if_neg hargs', if_neg hdepth, if_pos hsize]) hm
        rw [enter, if_neg hargs', if_neg hdepth, hminus]
        exact if_pos hsize
      · have hslice : slice? m.stack m.top (m.top - n + body.locals) =
            some (m.stack.extract m.top (m.top - n + body.locals)).toList :=
          slice?_eq (by omega) (Nat.not_lt.1 hsize)
        have hcleared : (m.stack.extract m.top (m.top - n + body.locals)).toList.length =
            m.top - n + body.locals - m.top := by
          rw [Array.length_toList, Array.size_extract]
          omega
        have hm₁ := (hm.clear (m.top - n + body.locals - m.top) (Nat.not_lt.1 hsize)).enter
          (f := { id, body, captured, base := m.top - n }) hclosure
          ⟨by show 1 ≤ m.top - n; omega, by rw [Machine.size_clearSlots]; show m.top - n ≤ _; omega⟩
          (hm.limits ▸ Nat.not_le.1 hdepth)
        refine agreesAt_ok ?_
          (by rw [Machine.enter, if_neg hargs', if_neg hdepth, if_neg hsize]) hm₁ trivial
        rw [enter, if_neg hargs', if_neg hdepth, hminus]
        show (if m.stack.size < m.top - n + body.locals then _ else _) = _
        rw [if_neg hsize, hslice, ← hcleared]
        rfl
  · exact agreesAt_error (by rw [enter, if_pos hargs]) (by rw [Machine.enter, if_pos hargs]) hm

theorem agrees_newIdentity :
    Agrees l size (fun _ => True) (free Machine.newIdentity) Machine.newIdentity :=
  fun _ hm => ⟨rfl, { hm with }, trivial⟩

theorem agrees_jumpTo (offset : Nat) :
    Agrees l size (fun _ => True) (free (Machine.jumpTo offset)) (Machine.jumpTo offset) :=
  fun _ hm => ⟨rfl, { hm with }, trivial⟩

/-- Every argument and the callee are on the stack, so there is a place for the answer. -/
theorem agreesAt_callBuiltin {function : Builtin} {n : Nat} (hn : n + 1 ≤ m.top)
    (hm : m.Contained l size) : AgreesAt l size (fun _ => True) (callBuiltin function n)
      (Machine.callBuiltin function n) m := by
  have hguarded : callBuiltin function n m =
      some (answer function (m.stack.extract (m.top - n) m.top).toList (m.top - n - 1) m) := by
    rw [callBuiltin, minus?_eq (by omega), Option.bind_eq_bind, Option.bind_some,
      slice?_eq (Nat.sub_le m.top n) hm.top, Option.bind_eq_bind, Option.bind_some,
      minus?_eq (by omega)]
    rfl
  rw [AgreesAt, hguarded, Machine.callBuiltin, Machine.bind_get, answer, Machine.bind_get]
  have hargs : ∀ v ∈ (m.stack.extract (m.top - n) m.top).toList, v.Bounded :=
    fun v hv => hm.slots v (mem_of_mem_slice hv)
  generalize (m.stack.extract (m.top - n) m.top).toList = arguments at hargs ⊢
  cases hw : m.console.write (function.printed arguments m.console.address) with
  | error reason =>
      have hprint : Machine.print function (function.printed arguments m.console.address) m =
          .error (.builtinFailed function reason) m := by
        rw [Machine.print, hw]
      rw [Machine.bind_error hprint, Machine.bind_error hprint]
      exact ⟨rfl, hm⟩
  | ok console =>
      have hprint : Machine.print function (function.printed arguments m.console.address) m =
          .ok () { m with console } := by
        rw [Machine.print, hw]
      rw [Machine.bind_ok hprint, Machine.bind_ok hprint]
      have hm₁ :
          { m with console, issued := m.issued + 1, top := m.top - n - 1 }.Contained l size :=
        { hm.lower (m.top - n - 1) (by omega) with }
      exact agrees_push (Builtin.each_apply (m.issued + 1) function hargs) _ hm₁

theorem agrees_call (count : Nat) :
    Agrees l size (fun _ => True) (call count) (Machine.call count) := by
  intro m hm
  have htop := hm.top
  by_cases h : m.top < count + 1
  · refine agreesAt_error (by rw [call, if_pos h]) ?_ hm
    rw [Machine.call, Machine.bind_get, if_pos h]
    rfl
  · obtain ⟨callee, hcallee⟩ : ∃ callee, m.stack[m.top - (count + 1)]? = some callee :=
      ⟨_, Array.getElem?_eq_getElem (by omega)⟩
    have hbounded := hm.slots callee (Array.mem_of_getElem? hcallee)
    have hslot : m.slot (m.top - (count + 1)) = callee := by
      rw [Machine.slot, hcallee]
      rfl
    rw [AgreesAt, call, if_neg h, hcallee, Machine.call, Machine.bind_get, if_neg h, hslot]
    cases callee with
    | closure id body captured => exact agreesAt_enter hbounded (Nat.not_lt.1 h) hm
    | builtin function => exact agreesAt_callBuiltin (Nat.not_lt.1 h) hm
    | _ => exact ⟨rfl, hm⟩

/-- A call that is not the top level has the place of its closure to return to. -/
theorem agrees_leave {v : Value} (hv : v.Bounded) :
    Agrees l size (fun _ => True) (leave v) (Machine.leave v) := by
  intro m hm
  cases hback : m.callers.back? with
  | none =>
      have hend := ((agrees_jumpTo m.frame.body.code.size).bind fun _ _ =>
        agrees_setSlot m.top hv) m hm
      have hleave : Machine.leave v m = (do
          Machine.jumpTo m.frame.body.code.size
          Machine.setSlot m.top v : Exec Unit) m := by
        rw [Machine.leave, Machine.bind_get, hback]
      refine ⟨by rw [leave, hback], ?_⟩
      rw [hleave]
      exact hend.2
  | some caller =>
      obtain ⟨callers, hcallers⟩ := Array.back?_eq_some_iff.1 hback
      obtain ⟨hpos, hle⟩ := hm.base (by rw [hcallers, Array.size_push]; omega)
      have hpop : m.callers.pop = callers := by
        rw [hcallers, Array.pop_push]
      have hpush := agrees_push hv _ (hm.back hcallers (m.frame.base - 1) (by omega))
      have hleave : Machine.leave v m = Machine.push v
          { m with frame := caller, callers, top := m.frame.base - 1 } := by
        rw [Machine.leave, Machine.bind_get, hback]
        show (if m.frame.base = 0 then Machine.fail .stackUnderflow else _) m = _
        rw [if_neg (by omega), ← hpop]
        rfl
      refine ⟨?_, ?_⟩
      · rw [leave, hback, hleave]
        show (minus? m.frame.base 1 >>= _) = _
        rw [minus?_eq hpos, hpop]
        rfl
      · rw [hleave]
        exact hpush.2

/-! ## Instructions -/

theorem agrees_applyBinary (op : BinaryOperator) :
    Agrees l size (fun _ => True) (applyBinary op) (Machine.applyBinary op) :=
  agrees_pop.bind fun _ _ => agrees_pop.bind fun _ _ =>
    (agrees_check fun _ => ValueOf.each_binary).bind fun _ => agrees_push

theorem agrees_compare (wanted : Bool) :
    Agrees l size (fun _ => True) (compare wanted) (Machine.compare wanted) :=
  agrees_pop.bind fun _ _ => agrees_pop.bind fun _ _ => agrees_push (ValueOf.each_bool _)

theorem agrees_makeClosure (index count : Nat) :
    Agrees l size (fun _ => True) (makeClosure index count) (Machine.makeClosure index count) := by
  intro m hm
  rw [AgreesAt, makeClosure, Machine.makeClosure, Machine.bind_get]
  cases hk : m.constants[index]? with
  | none => exact ⟨rfl, hm⟩
  | some v =>
      have hv := hm.pool v (Array.mem_of_getElem? hk)
      cases v with
      | template id body =>
          have hbody := (ValueOf.each_template body).1 hv
          exact ((agrees_take count).bind fun vs hvs => agrees_newIdentity.bind fun id _ =>
            agrees_push ((ValueOf.each_closure body).2 ⟨hbody, hvs⟩)) m hm
      | _ => exact ⟨rfl, hm⟩

/-- What an instruction reads and pushes. -/
theorem agrees_read {i : Instruction} {o : Machine → Option Value} {f : Machine → Fault}
    (hi : ∀ m, Machine.execute i m = match o m with
      | some v => Machine.push v m
      | none => .error (f m) m)
    (ho : ∀ m, m.Contained l size → ∀ v, o m = some v → v.Bounded) :
    Agrees l size (fun _ => True) (free (Machine.execute i)) (Machine.execute i) := by
  intro m hm
  refine ⟨rfl, ?_⟩
  rw [hi]
  cases h : o m with
  | some v => exact (agrees_push (ho m hm v h) m hm).2
  | none => exact hm

theorem agrees_execute (i : Instruction) :
    Agrees l size (fun _ => True) (execute i) (Machine.execute i) := by
  cases i
  case constant k =>
    refine agrees_read (o := fun m => m.constants[k]?) (f := fun _ => .invalidConstant k)
      (fun m => ?_) fun m hm v hv => hm.pool v (Array.mem_of_getElem? hv)
    rw [Machine.execute, Machine.pushConstant, Machine.bind_get]
    cases m.constants[k]? <;> rfl
  case add | subtract | multiply | divide | greater => exact agrees_applyBinary _
  case equal | notEqual => exact agrees_compare _
  case pop => exact agrees_pop.bind fun _ _ => agrees_pure trivial
  case pushTrue | pushFalse => exact agrees_push (ValueOf.each_bool _)
  case pushNull => exact agrees_push ValueOf.each_null
  case negate =>
    exact agrees_pop.bind fun _ _ => (agrees_check fun _ => ValueOf.each_negate).bind fun _ =>
      agrees_push
  case not => exact agrees_pop.bind fun _ _ => agrees_push (ValueOf.each_bool _)
  case jumpUnless target =>
    refine agrees_pop.bind fun v _ => ?_
    split
    · exact agrees_pure trivial
    · exact agrees_jumpTo _
  case jump target => exact agrees_jumpTo _
  case getGlobal k =>
    refine agrees_read (o := fun m => some (m.globals[k]?.getD .null)) (f := fun m => m.overflow)
      (fun m => rfl) fun m hm v hv => ?_
    cases hv
    exact ValueOf.each_getD fun v hv => hm.stored v (Array.mem_of_getElem? hv)
  case setGlobal k => exact agrees_storeGlobal k
  case array n =>
    exact (agrees_take n).bind fun vs hvs => agrees_newIdentity.bind fun id _ =>
      agrees_push (ValueOf.each_array.2 hvs)
  case hash n =>
    refine (agrees_take n).bind fun vs hvs => Agrees.bind (Q := fun es => ∀ e ∈ es, e.2.Bounded)
      (agrees_check fun es hes => ?_) fun es hes => agrees_newIdentity.bind fun id _ =>
        agrees_push (ValueOf.each_hash.2 hes)
    exact ValueOf.each_collectEntries hvs (List.forall_mem_nil _) hes
  case index =>
    exact agrees_pop.bind fun _ _ => agrees_pop.bind fun _ hc =>
      (agrees_check fun _ => ValueOf.each_atIndex hc).bind fun _ => agrees_push
  case call n => exact agrees_call n
  case returnValue => exact agrees_pop.bind fun _ => agrees_leave
  case returnNull => exact agrees_leave ValueOf.each_null
  case setLocal k =>
    exact fun m hm => (agrees_pop m hm).bind fun v hv => agrees_setSlot _ hv
  case getLocal k =>
    refine agrees_read (o := fun m => m.stack[m.frame.base + k]?) (f := fun m => m.overflow)
      (fun m => ?_) fun m hm v hv => hm.slots v (Array.mem_of_getElem? hv)
    rw [Machine.execute, Machine.pushLocal, Machine.bind_get]
    cases m.stack[m.frame.base + k]? <;> rfl
  case getBuiltin k =>
    refine agrees_read (o := fun _ => Builtin.all[k]?.map .builtin)
      (f := fun _ => .invalidBuiltin k)
      (fun m => ?_) fun m hm v hv => ?_
    · rw [Machine.execute, Machine.pushBuiltin]
      cases Builtin.all[k]? <;> rfl
    · obtain ⟨function, -, rfl⟩ := Option.map_eq_some_iff.1 hv
      exact ValueOf.each_builtin function
  case closure k n => exact agrees_makeClosure k n
  case getCaptured k =>
    refine agrees_read (o := fun m => m.frame.captured[k]?) (f := fun _ => .invalidCapture k)
      (fun m => ?_) fun m hm v hv =>
        ((ValueOf.each_closure _).1 hm.closure).2 v (List.mem_of_getElem? hv)
    rw [Machine.execute, Machine.pushCaptured, Machine.bind_get]
    cases m.frame.captured[k]? <;> rfl
  case currentClosure =>
    refine agrees_read (o := fun m => some m.frame.closure) (f := fun m => m.overflow)
      (fun m => rfl) fun m hm v hv => ?_
    cases hv
    exact hm.closure

/-! ## Fetching -/

theorem operandAt?_eq {code : Code} {offset width : Nat} (h : offset + width ≤ code.size) :
    operandAt? code offset width = some (code.operandAt offset width) := by
  induction width with
  | zero => rfl
  | succ width ih =>
      have hlt : offset + width < code.size := by omega
      have hlow : code[offset + width]? = some code[offset + width] := Array.getElem?_eq_getElem hlt
      simp [operandAt?, ih (by omega), hlow, Code.operandAt, Code.byteAt]

/-- No opcode has more than two operands. -/
theorem operandSize_eq (op : Opcode) :
    op.operandSize = op.widths.headD 0 + op.widths.tail.headD 0 := by
  cases op <;> rfl

/-- The size of an instruction is checked before its operands are read, for any stream. -/
theorem fetch_eq (code : Code) (ip : Nat) : fetch code ip = some (code.fetch? ip) := by
  rw [fetch, Code.fetch?]
  cases hbyte : code[ip]? with
  | none => rfl
  | some byte =>
      have hip := (Array.getElem?_eq_some_iff.1 hbyte).1
      dsimp only
      cases Opcode.ofByte? byte with
      | none => rfl
      | some op =>
          have hsum := operandSize_eq op
          have hsize : op.size = 1 + op.operandSize := rfl
          simp only [minus?_eq hip.le, minus?_eq (show 1 ≤ code.size - ip by omega),
            Option.bind_eq_bind, Option.bind_some]
          by_cases h : ip + op.size ≤ code.size
          · rw [if_pos h, if_neg (by omega)]
            cases hwidths : op.widths with
            | nil => rfl
            | cons width widths =>
                rw [hwidths] at hsum
                simp only [List.headD_cons, List.tail_cons] at hsum
                dsimp only
                rw [operandAt?_eq (by omega), operandAt?_eq (by omega)]
                rfl
          · rw [if_neg h, if_pos (by omega), Nat.sub_sub]

/-! ## Steps and runs -/

theorem step_eq (hm : m.Contained l size) :
    step m = some m.step ∧ m.step.machine.Contained l size := by
  rw [step, fetch_eq, Option.bind_eq_bind, Option.bind_some, Machine.step]
  cases Code.fetch? m.frame.body.code m.frame.ip with
  | error cause => exact ⟨rfl, hm⟩
  | ok found =>
      cases found with
      | none => exact ⟨rfl, hm⟩
      | some found =>
          obtain ⟨i, next⟩ := found
          have hm₁ : (m.advance next).Contained l size := { hm with }
          dsimp only
          cases (m.advance next).exceedsLimit with
          | some limit => exact ⟨rfl, hm₁⟩
          | none =>
              obtain ⟨hexec, hpost⟩ := agrees_execute i (m.advance next) hm₁
              dsimp only
              rw [hexec]
              cases h : Machine.execute i (m.advance next) with
              | ok a m₂ =>
                  rw [h] at hpost
                  exact ⟨rfl, hpost.1⟩
              | error f m₂ =>
                  rw [h] at hpost
                  exact ⟨rfl, hpost⟩

theorem contained_run (hm : m.Contained l size) (n : Nat) :
    (m.run n).machine.Contained l size := by
  induction n generalizing m with
  | zero => exact hm
  | succ n ih =>
      have hstep := (step_eq hm).2
      rw [Machine.run]
      cases h : m.step with
      | running m₁ =>
          rw [h] at hstep
          exact ih hstep
      | halted m₁ | faulted f m₁ =>
          rw [h] at hstep
          exact hstep

end Guarded

namespace Machine

variable {l : Limits} {size : Nat} {m : Machine}

theorem contained_start (l : Limits) (program : Bytecode) (globals : Array Value)
    (issued self : Identity) (console : Console) (hpool : ∀ v ∈ program.constants, v.Bounded)
    (hglobals : ∀ v ∈ globals, v.Bounded) :
    (start l program globals issued console self).Contained l globals.size where
  limits := rfl
  stack := Array.size_replicate
  top := Nat.zero_le _
  depth := le_max_left _ _
  globals := le_max_left _ _
  base := fun h => absurd rfl h
  bases := fun i f _ hf => by cases hf
  closure := (ValueOf.each_closure _).2 ⟨⟨Nat.le_refl _, Nat.zero_le _⟩, List.forall_mem_nil _⟩
  closures := fun f hf => absurd hf (Array.not_mem_empty f)
  pool := hpool
  slots := fun v hv => (Array.mem_replicate.1 hv).2 ▸ ValueOf.each_null
  stored := hglobals

/-- What holds of a machine whatever code it runs. A return never finds that it has no place for
its value, the slots that a call asks for can be counted, and the next step stays inside of every
array. -/
structure WithinBounds (l : Limits) (size : Nat) (m : Machine) : Prop where
  stack : m.stack.size = l.stackSize
  top : m.top ≤ m.stack.size
  frames : 1 ≤ m.frames.length ∧ m.frames.length ≤ max 1 l.maxFrames
  globals : m.globals.size ≤ max size l.globalsSize
  bases : ∀ f ∈ m.frames.tail, 1 ≤ f.base ∧ f.base ≤ m.stack.size
  returns : ∀ v m', leave v m ≠ .error .stackUnderflow m'
  reserve : ∀ id body captured, .closure id body captured ∈ m.stack →
    m.top + body.locals ≤ l.stackSize + 0x100000000
  places : Guarded.step m = some m.step

theorem Contained.bases_tail (hm : m.Contained l size) :
    ∀ f ∈ m.frames.tail, 1 ≤ f.base ∧ f.base ≤ m.stack.size := by
  intro f hf
  obtain ⟨i, hi⟩ := List.getElem?_of_mem hf
  rw [List.getElem?_tail, frames, List.getElem?_append, Array.length_toList] at hi
  split at hi
  · exact hm.bases (i + 1) f (Nat.succ_ne_zero i) (by rw [← hi, Array.getElem?_toList])
  · next h =>
      obtain ⟨hlt, hf⟩ := List.getElem?_eq_some_iff.1 hi
      have hne : m.callers.size ≠ 0 := by
        rw [List.length_singleton] at hlt
        omega
      rw [← hf, List.getElem_singleton]
      exact hm.base hne

theorem Contained.leave_ne_underflow (hm : m.Contained l size) (v : Value) (m' : Machine) :
    leave v m ≠ .error .stackUnderflow m' := by
  have hpush : ∀ m₁ : Machine, push v m₁ ≠ .error .stackUnderflow m' := by
    intro m₁ h
    rw [push] at h
    split at h <;> cases h
  have hset : ∀ (m₁ : Machine) i, setSlot i v m₁ ≠ .error .stackUnderflow m' := by
    intro m₁ i h
    rw [setSlot] at h
    split at h <;> cases h
  rw [leave, bind_get]
  cases hback : m.callers.back? with
  | none => exact hset _ _
  | some caller =>
      obtain ⟨callers, hcallers⟩ := Array.back?_eq_some_iff.1 hback
      obtain ⟨hpos, -⟩ := hm.base (by rw [hcallers, Array.size_push]; omega)
      dsimp only
      rw [if_neg (by omega)]
      exact hpush _

theorem Contained.withinBounds (hm : m.Contained l size) : m.WithinBounds l size := by
  have htop := hm.top
  have hlength : m.frames.length = m.callers.size + 1 := by
    rw [frames, List.length_append, Array.length_toList, List.length_singleton]
  refine ⟨hm.stack, htop, ?_, hm.globals, hm.bases_tail, hm.leave_ne_underflow, ?_,
    (Guarded.step_eq hm).1⟩
  · rw [hlength]
    exact ⟨Nat.le_add_left _ _, hm.depth⟩
  · intro id body captured hclosure
    have hlocals := ((ValueOf.each_closure body).1 (hm.slots _ hclosure)).1.2
    have hstack := hm.stack
    omega

/-- A machine keeps to its arrays and limits on any code, as long as the functions that it is given
are bounded. This holds after every number of instructions, and also where a fault has ended the
run. -/
theorem run_withinBounds (l : Limits) (program : Bytecode) (globals : Array Value)
    (issued self : Identity) (console : Console) (hpool : ∀ v ∈ program.constants, v.Bounded)
    (hglobals : ∀ v ∈ globals, v.Bounded) (n : Nat) :
    ((start l program globals issued console self).run n).machine.WithinBounds l globals.size :=
  (Guarded.contained_run (contained_start l program globals issued self console hpool hglobals)
    n).withinBounds

/-- Code that no source produces. A function hidden in an array pops the slot below its own frame
and returns, and the main code jumps back without end. -/
def hostileSample : Bytecode where
  code := ([.constant 0, .constant 1, .index, .call 0, .jump 0].flatMap Instruction.encode).toArray
  constants := #[
    .array 1 [.closure 0 {
      code := ([.pop, .pop, .returnNull].flatMap Instruction.encode).toArray
      locals := 1
      parameters := 0 } []],
    .int 0]

theorem run_withinBounds_hostileSample :
    ((start { stackSize := 3 } hostileSample #[] 2 {}).run 6).machine.top = 0 ∧
    ((start { stackSize := 3 } hostileSample #[] 2 {}).run 6).machine.callers.size = 1 ∧
    ((start { stackSize := 3 } hostileSample #[] 2 {}).run 6).machine.WithinBounds
      { stackSize := 3 } 0 := by
  refine ⟨by decide +kernel, by decide +kernel, ?_⟩
  exact run_withinBounds { stackSize := 3 } hostileSample #[] 2 2 {} (by decide) (by decide) 6

end Machine

end Monkey
