import Mathlib
import Monkey.Machine.Operators
import Monkey.Machine.State
import Monkey.Value.Builtins

/-!
# Operators do not look into functions

Operators and builtins work for functions with bodies of any kind, so they cannot tell values
apart that differ only in those bodies. `Related R` relates values that are built alike, with `R`
between the bodies of their closures, and every operator takes related values to related
answers, or to the same fault.

Two relations between bodies are of use. One relates the bodies of two kinds of values, those of a
machine and those of an evaluator. The other is a property of bodies, put on the diagonal: a value
related to itself is one whose closures all have the property, and operators keep it.
-/

namespace Monkey

/-- The faults that only malformed code can raise. -/
def Fault.structural : Fault → Bool
  | .stackUnderflow | .invalidConstant _ | .invalidBuiltin _ | .invalidCapture _
  | .badInstruction _ _ => true
  | _ => false

variable {F G : Type}

mutual

/-- The values are built alike, with related bodies in their closures. `R` sees the number of
captured values. A template is no value of a running program and has no like. -/
inductive Related (R : F → G → Nat → Prop) : ValueOf F → ValueOf G → Prop where
  | int {n} : Related R (.int n) (.int n)
  | bool {b} : Related R (.bool b) (.bool b)
  | str {text} : Related R (.str text) (.str text)
  | null : Related R .null .null
  | builtin {function} : Related R (.builtin function) (.builtin function)
  | error {id message} : Related R (.error id message) (.error id message)
  | array {id vs ws} : List.Forall₂ (Related R) vs ws → Related R (.array id vs) (.array id ws)
  | hash {id es es'} : List.Forall₂ (RelatedEntry R) es es' →
      Related R (.hash id es) (.hash id es')
  | closure {id f g vs ws} : R f g vs.length → List.Forall₂ (Related R) vs ws →
      Related R (.closure id f vs) (.closure id g ws)

/-- The entries have the same key and related values. -/
inductive RelatedEntry (R : F → G → Nat → Prop) : Key × ValueOf F → Key × ValueOf G → Prop where
  | mk {k v w} : Related R v w → RelatedEntry R (k, v) (k, w)

end

/-- Two outcomes are related values, or the same fault, which is not one of malformed code. -/
def RelatedAnswer (R : F → G → Nat → Prop) :
    Except Fault (ValueOf F) → Except Fault (ValueOf G) → Prop
  | .ok v, .ok w => Related R v w
  | .error f, .error g => f = g ∧ f.structural = false
  | _, _ => False

namespace Related

section Mono

variable {R S : F → G → Nat → Prop}

mutual

theorem mono (hRS : ∀ f g n, R f g n → S f g n) {v : ValueOf F} {w : ValueOf G} :
    Related R v w → Related S v w
  | .int => .int
  | .bool => .bool
  | .str => .str
  | .null => .null
  | .builtin => .builtin
  | .error => .error
  | .array h => .array (monoList hRS h)
  | .hash h => .hash (monoEntries hRS h)
  | .closure hr h => .closure (hRS _ _ _ hr) (monoList hRS h)

theorem monoList (hRS : ∀ f g n, R f g n → S f g n) {vs : List (ValueOf F)}
    {ws : List (ValueOf G)} : List.Forall₂ (Related R) vs ws → List.Forall₂ (Related S) vs ws
  | .nil => .nil
  | .cons h hs => .cons (h.mono hRS) (monoList hRS hs)

theorem monoEntries (hRS : ∀ f g n, R f g n → S f g n) {es : List (Key × ValueOf F)}
    {es' : List (Key × ValueOf G)} :
    List.Forall₂ (RelatedEntry R) es es' → List.Forall₂ (RelatedEntry S) es es'
  | .nil => .nil
  | .cons h hs => .cons (monoEntry hRS h) (monoEntries hRS hs)

theorem monoEntry (hRS : ∀ f g n, R f g n → S f g n) {e : Key × ValueOf F} {e' : Key × ValueOf G} :
    RelatedEntry R e e' → RelatedEntry S e e'
  | .mk h => .mk (h.mono hRS)

end

end Mono

/-! ## What can be seen of a value -/

variable {R : F → G → Nat → Prop} {v v' : ValueOf F} {w w' : ValueOf G}

theorem kind_eq (h : Related R v w) : v.kind = w.kind := by
  cases h <;> rfl

theorem isTruthy_eq (h : Related R v w) : v.isTruthy = w.isTruthy := by
  cases h <;> rfl

theorem key?_eq (h : Related R v w) : v.key? = w.key? := by
  cases h <;> rfl

theorem identical_eq (h : Related R v w) (h' : Related R v' w') :
    v.identical v' = w.identical w' := by
  cases h <;> cases h' <;> rfl

mutual

theorem write_eq {v : ValueOf F} {w : ValueOf G} (address : Identity → String) (out : String) :
    Related R v w → v.write address out = w.write address out
  | .int | .bool | .str | .null | .builtin | .error => by rw [ValueOf.write, ValueOf.write]
  | .array h => by rw [ValueOf.write, ValueOf.write, writeElements_eq _ _ _ h]
  | .hash h => by rw [ValueOf.write, ValueOf.write, writeEntries_eq _ _ _ h]
  | .closure _ _ => by rw [ValueOf.write, ValueOf.write]

theorem writeElements_eq {vs : List (ValueOf F)} {ws : List (ValueOf G)}
    (address : Identity → String) (out : String) (first : Bool) :
    List.Forall₂ (Related R) vs ws →
    writeElements address out first vs = writeElements address out first ws
  | .nil => by rw [writeElements, writeElements]
  | .cons h hs => by rw [writeElements, writeElements, h.write_eq, writeElements_eq _ _ _ hs]

theorem writeEntries_eq {es : List (Key × ValueOf F)} {es' : List (Key × ValueOf G)}
    (address : Identity → String) (out : String) (first : Bool) :
    List.Forall₂ (RelatedEntry R) es es' →
    writeEntries address out first es = writeEntries address out first es'
  | .nil => by rw [writeEntries, writeEntries]
  | .cons h hs => by
      rw [writeEntries, writeEntries, writeEntry_eq _ _ h, writeEntries_eq _ _ _ hs]

theorem writeEntry_eq {e : Key × ValueOf F} {e' : Key × ValueOf G} (address : Identity → String)
    (out : String) : RelatedEntry R e e' → writeEntry address out e = writeEntry address out e'
  | .mk h => by rw [writeEntry, writeEntry, h.write_eq]

end

theorem printed_eq {vs : List (ValueOf F)} {ws : List (ValueOf G)} (function : Builtin)
    (address : Identity → String) (h : List.Forall₂ (Related R) vs ws) :
    function.printed vs address = function.printed ws address := by
  cases function <;> try rfl
  have hfold : ∀ out, vs.foldl (fun out v => (v.write address out).push '\n') out =
      ws.foldl (fun out w => (w.write address out).push '\n') out := by
    induction h with
    | nil => exact fun _ => rfl
    | cons hv _ ih =>
        intro out
        rw [List.foldl_cons, List.foldl_cons, hv.write_eq]
        exact ih _
  exact hfold ""

/-! ## Operators -/

theorem arithmetic (a b : Int64) (op : BinaryOperator) :
    RelatedAnswer R (ValueOf.arithmetic a b op) (ValueOf.arithmetic a b op) := by
  cases op with
  | add | subtract | multiply => exact .int
  | divide =>
      rw [ValueOf.arithmetic, ValueOf.arithmetic]
      split
      · exact ⟨rfl, rfl⟩
      · exact .int
  | greater => exact .bool

theorem binary (op : BinaryOperator) (h : Related R v w) (h' : Related R v' w') :
    RelatedAnswer R (ValueOf.binary op v v') (ValueOf.binary op w w') := by
  have hkinds : RelatedAnswer R (.error (.operandKinds op v.kind v'.kind))
      (.error (.operandKinds op w.kind w'.kind)) := by
    rw [h.kind_eq, h'.kind_eq]
    exact ⟨rfl, rfl⟩
  cases h with
  | int =>
      cases h' with
      | int => exact arithmetic _ _ op
      | _ => exact hkinds
  | str =>
      cases h' with
      | str =>
          rw [ValueOf.binary, ValueOf.binary]
          split
          · exact .str
          · exact hkinds
      | _ => exact hkinds
  | _ => exact hkinds

theorem negate (h : Related R v w) : RelatedAnswer R v.negate w.negate := by
  cases h with
  | int => exact .int
  | _ => exact ⟨rfl, rfl⟩

theorem getD_null {o : Option (ValueOf F)} {o' : Option (ValueOf G)}
    (h : Option.Rel (Related R) o o') : Related R (o.getD .null) (o'.getD .null) := by
  cases h with
  | none => exact .null
  | some h => exact h

theorem getElem? {vs : List (ValueOf F)} {ws : List (ValueOf G)}
    (h : List.Forall₂ (Related R) vs ws) (i : Nat) : Option.Rel (Related R) vs[i]? ws[i]? := by
  induction h generalizing i with
  | nil => exact .none
  | cons hv _ ih =>
      cases i with
      | zero => exact .some hv
      | succ i => exact ih i

theorem lookup? {es : List (Key × ValueOf F)} {es' : List (Key × ValueOf G)}
    (h : List.Forall₂ (RelatedEntry R) es es') (key : Key) :
    Option.Rel (Related R) (Monkey.lookup? key es) (Monkey.lookup? key es') := by
  induction h with
  | nil => exact .none
  | cons he _ ih =>
      obtain ⟨hv⟩ := he
      rw [Monkey.lookup?, Monkey.lookup?]
      split
      · exact .some hv
      · exact ih

theorem insertEntry {es : List (Key × ValueOf F)} {es' : List (Key × ValueOf G)}
    (h : List.Forall₂ (RelatedEntry R) es es') (key : Key) (hv : Related R v w) :
    List.Forall₂ (RelatedEntry R) (Monkey.insertEntry key v es) (Monkey.insertEntry key w es') := by
  induction h with
  | nil => exact .cons (.mk hv) .nil
  | cons he hes ih =>
      obtain ⟨hv'⟩ := he
      rw [Monkey.insertEntry, Monkey.insertEntry]
      split
      · exact .cons (.mk hv) hes
      · exact .cons (.mk hv') ih

theorem elementAt {vs : List (ValueOf F)} {ws : List (ValueOf G)}
    (h : List.Forall₂ (Related R) vs ws) (position : Int64) :
    Related R (ValueOf.elementAt vs position) (ValueOf.elementAt ws position) := by
  rw [ValueOf.elementAt, ValueOf.elementAt]
  split
  · exact .null
  · exact getD_null (getElem? h _)

theorem atIndex (h : Related R v w) (h' : Related R v' w') :
    RelatedAnswer R (v.atIndex v') (w.atIndex w') := by
  have hkinds : RelatedAnswer R (.error (.indexKinds v.kind v'.kind))
      (.error (.indexKinds w.kind w'.kind)) := by
    rw [h.kind_eq, h'.kind_eq]
    exact ⟨rfl, rfl⟩
  cases h with
  | array hvs =>
      cases h' with
      | int => exact elementAt hvs _
      | _ => exact hkinds
  | hash hes =>
      have hkey := h'.key?_eq
      have hkind := h'.kind_eq
      rw [ValueOf.atIndex, ValueOf.atIndex, ← hkey, ← hkind]
      cases v'.key? with
      | none => exact ⟨rfl, rfl⟩
      | some key => exact getD_null (lookup? hes key)
  | _ => exact hkinds

theorem collectEntries {vs : List (ValueOf F)} {ws : List (ValueOf G)}
    (h : List.Forall₂ (Related R) vs ws) {es : List (Key × ValueOf F)}
    {es' : List (Key × ValueOf G)} (hes : List.Forall₂ (RelatedEntry R) es es') :
    match ValueOf.collectEntries es vs, ValueOf.collectEntries es' ws with
    | .ok done, .ok done' => List.Forall₂ (RelatedEntry R) done done'
    | .error f, .error g => f = g ∧ f.structural = false
    | _, _ => False := by
  fun_induction ValueOf.collectEntries es vs generalizing ws es' with
  | case1 es k v rest key hkey ih =>
      obtain _ | ⟨hk, _ | ⟨hv, hrest⟩⟩ := h
      rw [ValueOf.collectEntries, ← hk.key?_eq, hkey]
      exact ih hrest (insertEntry hes key hv)
  | case2 es k v rest hkey =>
      obtain _ | ⟨hk, _ | ⟨hv, hrest⟩⟩ := h
      rw [ValueOf.collectEntries, ← hk.key?_eq, hkey]
      exact ⟨by rw [hk.kind_eq], rfl⟩
  | case3 es vs hshort =>
      cases h with
      | nil => exact hes
      | cons hv hrest =>
          cases hrest with
          | nil => exact hes
          | cons hv' hrest => exact absurd rfl (hshort _ _ _)

end Related

/-! ## Builtins -/

namespace Builtin

variable {R : F → G → Nat → Prop} {vs : List (ValueOf F)} {ws : List (ValueOf G)}

theorem elements_related (function : Builtin) (h : List.Forall₂ (Related R) vs ws) :
    match function.elements vs, function.elements ws with
    | .ok es, .ok es' => List.Forall₂ (Related R) es es'
    | .error e, .error e' => e = e'
    | _, _ => False := by
  cases h with
  | nil => exact rfl
  | cons hv hrest =>
      cases hrest with
      | nil =>
          cases hv with
          | array hes => exact hes
          | _ => exact rfl
      | cons _ hrest =>
          have hcount := congrArg (fun n => ArgumentError.count (n + 1 + 1) 1) hrest.length_eq
          cases hv <;> exact hcount

theorem head_related (h : List.Forall₂ (Related R) vs ws) :
    Related R (vs.head?.getD .null) (ws.head?.getD .null) := by
  cases h with
  | nil => exact .null
  | cons hv _ => exact hv

theorem last_related (h : List.Forall₂ (Related R) vs ws) :
    Related R (vs.getLast?.getD .null) (ws.getLast?.getD .null) := by
  rw [List.getLast?_eq_getElem?, List.getLast?_eq_getElem?, h.length_eq]
  exact Related.getD_null (Related.getElem? h _)

theorem map_elements_related (id : Identity) (function : Builtin)
    (h : List.Forall₂ (Related R) vs ws) {f : List (ValueOf F) → ValueOf F}
    {g : List (ValueOf G) → ValueOf G}
    (hfg : ∀ es es', List.Forall₂ (Related R) es es' → Related R (f es) (g es')) :
    Related R
      (match (function.elements vs).map f with
        | .ok value => value
        | .error e => e.toValue id)
      (match (function.elements ws).map g with
        | .ok value => value
        | .error e => e.toValue id) := by
  have helements := elements_related function h
  cases hvs : function.elements vs <;> cases hws : function.elements ws <;>
    rw [hvs, hws] at helements
  case ok.ok es es' => exact hfg es es' helements
  case error.error e e' =>
    have heq : e = e' := helements
    subst heq
    exact .error
  all_goals exact helements.elim

theorem error_of_count {id : Identity} {n n' want : Nat} (h : n = n') {v : ValueOf F}
    {w : ValueOf G} (hv : v = .error id (ArgumentError.count n want).message)
    (hw : w = .error id (ArgumentError.count n' want).message) : Related R v w := by
  subst h hv hw
  exact .error

theorem apply_related (id : Identity) (function : Builtin) (h : List.Forall₂ (Related R) vs ws) :
    Related R (function.apply id vs) (function.apply id ws) := by
  have hlen := h.length_eq
  cases function with
  | len =>
      cases h with
      | nil => exact .error
      | cons hv hrest =>
          cases hrest with
          | nil =>
              cases hv with
              | array hes =>
                  show Related R (.int (Int64.ofNat _)) (.int (Int64.ofNat _))
                  rw [hes.length_eq]
                  exact .int
              | str => exact .int
              | _ => exact .error
          | cons _ _ => cases hv <;> exact error_of_count hlen rfl rfl
  | puts => exact .null
  | first => exact map_elements_related id .first h fun _ _ => head_related
  | last => exact map_elements_related id .last h fun _ _ => last_related
  | rest =>
      refine map_elements_related id .rest h fun es es' hes => ?_
      cases hes with
      | nil => exact .null
      | cons _ htail => exact .array htail
  | push =>
      cases h with
      | nil => exact .error
      | cons hv hrest =>
          cases hrest with
          | nil => cases hv <;> exact .error
          | cons hv' hrest =>
              cases hrest with
              | nil =>
                  cases hv with
                  | array hes => exact .array (List.rel_append hes (.cons hv' .nil))
                  | _ => exact .error
              | cons _ _ => cases hv <;> exact error_of_count hlen rfl rfl

end Builtin

/-! ## Calls that need no frame -/

/-- What outlives a run. -/
structure WorldOf (F : Type) where
  globals : Array (ValueOf F)
  /-- The last identity that was given out. -/
  issued : Identity
  console : Console

/-- The answer of a callee that is not a closure, in the world after it. -/
def callAnswer (w : WorldOf F) (callee : ValueOf F) (arguments : List (ValueOf F)) :
    Except Fault (ValueOf F × WorldOf F) :=
  match callee with
  | .builtin function =>
      match w.console.write (function.printed arguments w.console.address) with
      | .ok console =>
          .ok (function.apply (w.issued + 1) arguments,
            { w with issued := w.issued + 1, console })
      | .error reason => .error (.builtinFailed function reason)
  | v => .error (.notAFunction v.kind)

/-- Such a call does not touch the globals, and worlds that look alike but for them stay alike. -/
theorem callAnswer_related {R : F → G → Nat → Prop} {w : WorldOf F} {w' : WorldOf G}
    {callee : ValueOf F} {callee' : ValueOf G} {vs : List (ValueOf F)} {ws : List (ValueOf G)}
    (hissued : w.issued = w'.issued) (hconsole : w.console = w'.console)
    (hc : Related R callee callee') (h : List.Forall₂ (Related R) vs ws) :
    match callAnswer w callee vs, callAnswer w' callee' ws with
    | .ok (v, u), .ok (v', u') => Related R v v' ∧ u.globals = w.globals ∧ u'.globals = w'.globals ∧
        u.issued = u'.issued ∧ u.console = u'.console
    | .error f, .error f' => f = f' ∧ f.structural = false
    | _, _ => False := by
  cases hc with
  | builtin =>
      next function =>
      rw [callAnswer, callAnswer, ← hconsole, ← Related.printed_eq function _ h, ← hissued]
      cases w.console.write (function.printed vs w.console.address) with
      | error reason => exact ⟨rfl, rfl⟩
      | ok console => exact ⟨Builtin.apply_related _ _ h, rfl, rfl, rfl, rfl⟩
  | _ => exact ⟨rfl, rfl⟩

end Monkey
