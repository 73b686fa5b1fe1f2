import Monkey.Proofs.Parametric

/-!
# Where function bodies come from

Operators and builtins make no functions. Every body that occurs in an answer, at whatever depth,
occurs in one of the operands, so a property that the bodies of all operands have is one that the
bodies of the answer have. Templates count here: code that no compiler wrote may push one like any
other constant.
-/

namespace Monkey

variable {F : Type}

mutual

/-- The bodies of the functions that occur in a value, at any depth. -/
def ValueOf.bodies : ValueOf F → List F
  | .int _ | .bool _ | .str _ | .null | .builtin _ | .error _ _ => []
  | .array _ elements => bodiesOfAll elements
  | .hash _ entries => bodiesOfEntries entries
  | .template _ body => [body]
  | .closure _ body captured => body :: bodiesOfAll captured

def bodiesOfAll : List (ValueOf F) → List F
  | [] => []
  | v :: rest => v.bodies ++ bodiesOfAll rest

def bodiesOfEntries : List (Key × ValueOf F) → List F
  | [] => []
  | entry :: rest => bodiesOfEntry entry ++ bodiesOfEntries rest

def bodiesOfEntry : Key × ValueOf F → List F
  | (_, v) => v.bodies

end

attribute [local simp] ValueOf.bodies bodiesOfAll bodiesOfEntries bodiesOfEntry

namespace ValueOf

/-- The bodies of all functions in a value have a property. -/
def Each (P : F → Prop) (v : ValueOf F) : Prop :=
  ∀ b ∈ v.bodies, P b

instance (P : F → Prop) [DecidablePred P] (v : ValueOf F) : Decidable (v.Each P) :=
  inferInstanceAs (Decidable (∀ b ∈ v.bodies, P b))

variable {P : F → Prop} {id : Identity} {v l r : ValueOf F} {vs : List (ValueOf F)}
  {es done : List (Key × ValueOf F)}

theorem mem_bodiesOfAll {b : F} : b ∈ bodiesOfAll vs ↔ ∃ v ∈ vs, b ∈ v.bodies := by
  induction vs with
  | nil => simp [bodiesOfAll]
  | cons v vs ih => simp [bodiesOfAll, ih]

theorem mem_bodiesOfEntries {b : F} : b ∈ bodiesOfEntries es ↔ ∃ e ∈ es, b ∈ e.2.bodies := by
  induction es with
  | nil => simp [bodiesOfEntries]
  | cons e es ih =>
      obtain ⟨k, v⟩ := e
      simp [bodiesOfEntries, bodiesOfEntry, ih]

@[simp] theorem each_int (n : Int64) : (int n : ValueOf F).Each P := by simp [Each, bodies]
@[simp] theorem each_bool (b : Bool) : (bool b : ValueOf F).Each P := by simp [Each, bodies]
@[simp] theorem each_str (text : String) : (str text : ValueOf F).Each P := by simp [Each, bodies]
@[simp] theorem each_null : (null : ValueOf F).Each P := by simp [Each, bodies]
@[simp] theorem each_builtin (f : Builtin) : (builtin f : ValueOf F).Each P := by
  simp [Each, bodies]
@[simp] theorem each_error (text : String) : (error id text : ValueOf F).Each P := by
  simp [Each, bodies]
@[simp] theorem each_template (b : F) : (template id b).Each P ↔ P b := by simp [Each, bodies]

@[simp] theorem each_array : (array id vs).Each P ↔ ∀ v ∈ vs, v.Each P := by
  simp only [Each, bodies, mem_bodiesOfAll]
  exact ⟨fun h v hv b hb => h b ⟨v, hv, hb⟩, fun h b ⟨v, hv, hb⟩ => h v hv b hb⟩

@[simp] theorem each_hash : (hash id es).Each P ↔ ∀ e ∈ es, e.2.Each P := by
  simp only [Each, bodies, mem_bodiesOfEntries]
  exact ⟨fun h e he b hb => h b ⟨e, he, hb⟩, fun h b ⟨e, he, hb⟩ => h e he b hb⟩

@[simp] theorem each_closure (b : F) : (closure id b vs).Each P ↔ P b ∧ ∀ v ∈ vs, v.Each P := by
  have hvs : (∀ b ∈ bodiesOfAll vs, P b) ↔ ∀ v ∈ vs, v.Each P := by
    rw [← each_array, Each, bodies]
    exact id
  rw [Each, bodies, List.forall_mem_cons, hvs]

/-! ## Operators -/

theorem each_arithmetic {a b : Int64} {op : BinaryOperator} (h : arithmetic a b op = .ok v) :
    v.Each P := by
  cases op <;> simp only [arithmetic] at h
  case divide =>
    split at h
    · cases h
    · cases h
      exact each_int _
  all_goals
    cases h
    simp

theorem each_binary {op : BinaryOperator} (h : binary op l r = .ok v) : v.Each P := by
  unfold binary at h
  split at h
  · exact each_arithmetic h
  · split at h
    · cases h
      exact each_str _
    · cases h
  · cases h

theorem each_negate (h : l.negate = .ok v) : v.Each P := by
  cases l <;> cases h
  exact each_int _

theorem each_getD {o : Option (ValueOf F)} (h : ∀ v, o = some v → v.Each P) :
    (o.getD .null).Each P := by
  cases o with
  | none => exact each_null
  | some v => exact h v rfl

theorem each_lookup? {key : Key} (hes : ∀ e ∈ es, e.2.Each P) (h : lookup? key es = some v) :
    v.Each P := by
  induction es with
  | nil => cases h
  | cons e es ih =>
      rw [lookup?] at h
      split at h
      · cases h
        exact hes e List.mem_cons_self
      · exact ih (fun e he => hes e (List.mem_cons_of_mem _ he)) h

theorem each_atIndex (hl : l.Each P) (h : l.atIndex r = .ok v) : v.Each P := by
  unfold atIndex at h
  split at h
  · next id elements i =>
      cases h
      rw [elementAt]
      split
      · exact each_null
      · exact each_getD fun v hv => each_array.1 hl v (List.mem_of_getElem? hv)
  · next id entries _ =>
      split at h
      · cases h
        exact each_getD fun v hv => each_lookup? (each_hash.1 hl) hv
      · cases h
  · cases h

theorem each_insertEntry {key : Key} (hv : v.Each P) (hes : ∀ e ∈ es, e.2.Each P) :
    ∀ e ∈ insertEntry key v es, e.2.Each P := by
  induction es with
  | nil => simpa [insertEntry] using hv
  | cons e es ih =>
      have hrest : ∀ e ∈ es, e.2.Each P := fun e he => hes e (List.mem_cons_of_mem _ he)
      rw [insertEntry]
      split
      · exact List.forall_mem_cons.2 ⟨hv, hrest⟩
      · exact List.forall_mem_cons.2 ⟨hes e List.mem_cons_self, ih hrest⟩

theorem each_collectEntries (hvs : ∀ v ∈ vs, v.Each P) (hes : ∀ e ∈ es, e.2.Each P)
    (h : collectEntries es vs = .ok done) : ∀ e ∈ done, e.2.Each P := by
  fun_induction collectEntries es vs with
  | case1 es k v rest key hkey ih =>
      simp only [List.forall_mem_cons] at hvs
      exact ih hvs.2.2 (each_insertEntry hvs.2.1 hes) h
  | case2 es k v rest hkey => cases h
  | case3 es vs hshort =>
      cases h
      exact hes

end ValueOf

/-! ## Builtins -/

namespace Builtin

variable {P : F → Prop} {function : Builtin} {args es : List (ValueOf F)} {v : ValueOf F}

theorem each_elements (hargs : ∀ v ∈ args, v.Each P) (h : function.elements args = .ok es) :
    ∀ v ∈ es, v.Each P := by
  unfold elements at h
  split at h
  · cases h
    exact ValueOf.each_array.1 (hargs _ List.mem_cons_self)
  · cases h
  · cases h

theorem each_answer (id : Identity) (hargs : ∀ v ∈ args, v.Each P)
    (h : function.answer id args = .ok v) : v.Each P := by
  have haccess : ∀ {accessor : Builtin} {f : List (ValueOf F) → ValueOf F},
      (∀ es, (∀ v ∈ es, v.Each P) → (f es).Each P) → (accessor.elements args).map f = .ok v →
      v.Each P := by
    intro accessor f hf hmap
    cases hes : accessor.elements args with
    | error e =>
        rw [hes] at hmap
        cases hmap
    | ok es =>
        rw [hes] at hmap
        cases hmap
        exact hf es (each_elements hargs hes)
  cases function with
  | len =>
      simp only [answer] at h
      split at h <;> cases h
      · exact ValueOf.each_int _
      · exact ValueOf.each_int _
  | puts =>
      cases h
      exact ValueOf.each_null
  | first =>
      refine haccess (fun es hes => ?_) h
      exact ValueOf.each_getD fun v hv => hes v (List.mem_of_head? hv)
  | last =>
      exact haccess (fun es hes => ValueOf.each_getD fun v hv => hes v (List.mem_of_getLast? hv)) h
  | rest =>
      refine haccess (fun es hes => ?_) h
      cases es with
      | nil => exact ValueOf.each_null
      | cons e es => exact ValueOf.each_array.2 fun v hv => hes v (List.mem_cons_of_mem _ hv)
  | push =>
      simp only [answer] at h
      split at h
      · cases h
        simp only [List.forall_mem_cons, ValueOf.each_array] at hargs ⊢
        intro v hv
        rcases List.mem_append.1 hv with hv | hv
        · exact hargs.1 v hv
        · rw [List.mem_singleton.1 hv]
          exact hargs.2.1
      · cases h
      · cases h

/-- A builtin makes no functions. -/
theorem each_apply (id : Identity) (function : Builtin) (hargs : ∀ v ∈ args, v.Each P) :
    (function.apply id args).Each P := by
  rw [apply]
  cases h : function.answer id args with
  | ok v => exact each_answer id hargs h
  | error e => exact ValueOf.each_error _

end Builtin

end Monkey
