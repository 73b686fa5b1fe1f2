import Monkey.Proofs.Hashes
import Monkey.Value.Equality

/-!
# Structural equality is equality up to the order of entries

`Value.alike` compares hashes in one direction only: both have as many entries, and each entry of
the left one has its like in the right one. Why this is symmetric cannot be seen from the comparison
itself. `Reordered` says what it decides: the values are the same but for the identities of objects
and the order of the entries of hashes, at any depth. That relation is an equivalence for reasons of
its own, since entries that are reordered can be reordered back.

The two agree as long as the keys of each hash are different (`WellKeyed`). From left to right this
is a count: the entries found on the right side are different ones, and there are no others left.
-/

namespace Monkey

/-! ## Values with different keys -/

section WellKeyed

variable {F : Type}

/-- The values that a value is directly made of. -/
def ValueOf.parts : ValueOf F → List (ValueOf F)
  | .array _ elements => elements
  | .hash _ entries => entries.map Prod.snd
  | .closure _ _ captured => captured
  | _ => []

theorem ValueOf.sizeOf_lt_of_mem_parts {u v : ValueOf F} (h : u ∈ v.parts) :
    sizeOf u < sizeOf v := by
  cases v with
  | array id vs =>
      have hlt : sizeOf u < sizeOf vs := List.sizeOf_lt_of_mem h
      simp only [array.sizeOf_spec]
      omega
  | closure id body vs =>
      have hlt : sizeOf u < sizeOf vs := List.sizeOf_lt_of_mem h
      simp only [closure.sizeOf_spec]
      omega
  | hash id es =>
      obtain ⟨e, he, rfl⟩ := List.mem_map.1 h
      have hlt := List.sizeOf_lt_of_mem he
      have hentry : sizeOf e = 1 + sizeOf e.1 + sizeOf e.2 := rfl
      simp only [hash.sizeOf_spec]
      omega
  | _ => cases h

/-- Induction over values: what passes from the parts of a value to the value holds of all. -/
theorem ValueOf.byParts {P : ValueOf F → Prop} (parts : ∀ v, (∀ u ∈ v.parts, P u) → P v)
    (v : ValueOf F) : P v := by
  induction hn : sizeOf v using Nat.strongRecOn generalizing v with
  | ind n ih => exact parts v fun u hu => ih _ (hn ▸ sizeOf_lt_of_mem_parts hu) u rfl

/-- The keys of a hash, in order. Other values have none. -/
def ValueOf.keys : ValueOf F → List Key
  | .hash _ entries => entries.map Prod.fst
  | _ => []

/-- In each hash that occurs in a value, at any depth, the keys are different. -/
inductive WellKeyed : ValueOf F → Prop where
  | mk {v : ValueOf F} (keys : v.keys.Nodup) (parts : ∀ u ∈ v.parts, WellKeyed u) : WellKeyed v

end WellKeyed

/-! ## Values that differ in the order of entries -/

mutual

/-- The values are built alike, except that the entries of their hashes may come in another order.
Identities do not count. -/
inductive Reordered : Value → Value → Prop where
  | int {n} : Reordered (.int n) (.int n)
  | bool {b} : Reordered (.bool b) (.bool b)
  | str {text} : Reordered (.str text) (.str text)
  | null : Reordered .null .null
  | array {id id' vs ws} : List.Forall₂ Reordered vs ws →
      Reordered (.array id vs) (.array id' ws)
  | hash {id id' es fs es'} : List.Forall₂ ReorderedEntry es fs → fs.Perm es' →
      Reordered (.hash id es) (.hash id' es')
  | template {id id' body} : Reordered (.template id body) (.template id' body)
  | closure {id id' body vs ws} : List.Forall₂ Reordered vs ws →
      Reordered (.closure id body vs) (.closure id' body ws)
  | builtin {function} : Reordered (.builtin function) (.builtin function)
  | error {id id' message} : Reordered (.error id message) (.error id' message)

/-- The entries have the same key, and values that differ in the order of entries. -/
inductive ReorderedEntry : Key × Value → Key × Value → Prop where
  | mk {k v w} : Reordered v w → ReorderedEntry (k, v) (k, w)

end

/-! ## Relations between lists, by what holds of their elements -/

section Lists

variable {α β : Type} {R : α → α → Prop} {xs ys zs : List α}

theorem forall₂_of_mem {S T : α → β → Prop} {ys : List β} (h : List.Forall₂ S xs ys)
    (himp : ∀ x ∈ xs, ∀ y, S x y → T x y) : List.Forall₂ T xs ys := by
  induction h with
  | nil => exact .nil
  | cons hxy _ ih =>
      obtain ⟨hx, hxs⟩ := List.forall_mem_cons.1 himp
      exact .cons (hx _ hxy) (ih hxs)

theorem forall₂_symm_of_mem (h : List.Forall₂ R xs ys)
    (hsymm : ∀ x ∈ xs, ∀ y, R x y → R y x) : List.Forall₂ R ys xs :=
  List.Forall₂.flip (forall₂_of_mem h hsymm)

theorem forall₂_trans_of_mem (h₁ : List.Forall₂ R xs ys) (h₂ : List.Forall₂ R ys zs)
    (htrans : ∀ x ∈ xs, ∀ y z, R x y → R y z → R x z) : List.Forall₂ R xs zs := by
  induction h₁ generalizing zs with
  | nil => exact h₂
  | cons hxy _ ih =>
      cases h₂ with
      | cons hyz hyzs =>
          obtain ⟨hx, hxs⟩ := List.forall_mem_cons.1 htrans
          exact .cons (hx _ _ hxy hyz) (ih hyzs hxs)

end Lists

/-! ## An equivalence -/

namespace Reordered

theorem refl (v : Value) : Reordered v v := by
  induction v using ValueOf.byParts with
  | parts v ih =>
      cases v with
      | int | bool | str | null | template | builtin | error => constructor
      | array id vs => exact .array (List.forall₂_same.2 ih)
      | closure id body vs => exact .closure (List.forall₂_same.2 ih)
      | hash id es =>
          refine .hash (List.forall₂_same.2 fun e he => ?_) (.refl es)
          exact .mk (ih e.2 (List.mem_map_of_mem he))

theorem symm {v w : Value} (h : Reordered v w) : Reordered w v := by
  induction v using ValueOf.byParts generalizing w with
  | parts v ih =>
      cases h with
      | int | bool | str | null | template | builtin | error => constructor
      | array h => exact .array (forall₂_symm_of_mem h fun u hu w => ih u hu)
      | closure h => exact .closure (forall₂_symm_of_mem h fun u hu w => ih u hu)
      | hash h hperm =>
          have hback := forall₂_symm_of_mem h fun e he f hef => by
            cases hef with
            | mk h => exact .mk (ih _ (List.mem_map_of_mem he) h)
          -- what was reordered on the right is reordered back on the left
          obtain ⟨gs, hgs, hperm'⟩ := List.perm_comp_forall₂ hperm.symm hback
          exact .hash hgs hperm'

theorem trans {u v w : Value} (h₁ : Reordered u v) (h₂ : Reordered v w) : Reordered u w := by
  induction u using ValueOf.byParts generalizing v w with
  | parts u ih =>
      cases h₁ with
      | int | bool | str | null | builtin => exact h₂
      | template | error =>
          cases h₂
          constructor
      | array h₁ =>
          cases h₂ with
          | array h₂ => exact .array (forall₂_trans_of_mem h₁ h₂ fun u hu v w => ih u hu)
      | closure h₁ =>
          cases h₂ with
          | closure h₂ => exact .closure (forall₂_trans_of_mem h₁ h₂ fun u hu v w => ih u hu)
      | hash h₁ hperm₁ =>
          cases h₂ with
          | hash h₂ hperm₂ =>
              -- the second comparison is brought into the order of the first one
              obtain ⟨gs, hgs, hperm⟩ := List.perm_comp_forall₂ hperm₁ h₂
              refine .hash (forall₂_trans_of_mem h₁ hgs fun e he f g hef hfg => ?_)
                (hperm.trans hperm₂)
              cases hef with
              | mk hef =>
                  cases hfg with
                  | mk hfg => exact .mk (ih _ (List.mem_map_of_mem he) hef hfg)

end Reordered

/-! ## What the comparison finds -/

section Comparison

variable {v w : Value} {vs ws : List Value} {es fs : List (Key × Value)}

theorem allAlike_iff :
    allAlike vs ws = true ↔ List.Forall₂ (fun v w => v.alike w = true) vs ws := by
  induction vs generalizing ws with
  | nil => cases ws <;> simp [allAlike]
  | cons v vs ih =>
      cases ws with
      | nil => simp [allAlike]
      | cons w ws => simp [allAlike, ih]

theorem entryFound_iff {e : Key × Value} :
    entryFound e fs = true ↔ ∃ w, lookup? e.1 fs = some w ∧ e.2.alike w = true := by
  obtain ⟨k, v⟩ := e
  rw [entryFound]
  cases lookup? k fs <;> simp

theorem entriesFound_iff : entriesFound es fs = true ↔
    ∀ e ∈ es, ∃ w, lookup? e.1 fs = some w ∧ e.2.alike w = true := by
  induction es with
  | nil => simp [entriesFound]
  | cons e es ih =>
      rw [entriesFound, Bool.and_eq_true, entryFound_iff, ih, List.forall_mem_cons]

theorem Reordered.keys_eq (h : List.Forall₂ ReorderedEntry es fs) :
    es.map Prod.fst = fs.map Prod.fst := by
  induction h with
  | nil => rfl
  | cons he _ ih =>
      cases he
      rw [List.map_cons, List.map_cons, ih]

theorem Reordered.exists_of_mem {e : Key × Value} (h : List.Forall₂ ReorderedEntry es fs)
    (he : e ∈ es) : ∃ w, (e.1, w) ∈ fs ∧ Reordered e.2 w := by
  induction h with
  | nil => cases he
  | cons hef _ ih =>
      rcases List.mem_cons.1 he with rfl | hrest
      · cases hef with
        | mk h => exact ⟨_, List.mem_cons_self, h⟩
      · obtain ⟨w, hw, h⟩ := ih hrest
        exact ⟨w, List.mem_cons_of_mem _ hw, h⟩

/-- Entries that are found among as many others are those others in another order. -/
theorem exists_perm_of_found (hkeys : (es.map Prod.fst).Nodup) (hlength : es.length = fs.length)
    (hfound : ∀ e ∈ es, ∃ w, lookup? e.1 fs = some w ∧ Reordered e.2 w) :
    ∃ gs, List.Forall₂ ReorderedEntry es gs ∧ gs.Perm fs := by
  let gs := es.map fun e => (e.1, (lookup? e.1 fs).getD .null)
  have hgs : gs.map Prod.fst = es.map Prod.fst := by
    rw [List.map_map]
    rfl
  have hsubset : gs ⊆ fs := by
    intro g hg
    obtain ⟨e, he, rfl⟩ := List.mem_map.1 hg
    obtain ⟨w, hw, -⟩ := hfound e he
    rw [hw]
    exact mem_of_lookup?_eq_some hw
  have hnodup : gs.Nodup := List.Nodup.of_map Prod.fst (hgs ▸ hkeys)
  refine ⟨gs, ?_, (hnodup.subperm hsubset).perm_of_length_le ?_⟩
  · rw [List.forall₂_map_right_iff, List.forall₂_same]
    intro e he
    obtain ⟨w, hw, h⟩ := hfound e he
    rw [hw]
    exact .mk h
  · rw [List.length_map, hlength]

end Comparison

/-! ## The comparison decides the relation -/

namespace Value

theorem reordered_of_alike {v w : Value} (hv : WellKeyed v) (h : v.alike w = true) :
    Reordered v w := by
  induction hv generalizing w with
  | @mk v hkeys _ ih =>
      cases v <;> cases w <;>
        simp only [alike, Bool.and_eq_true, beq_iff_eq, Bool.false_eq_true] at h
      case int => exact h ▸ .int
      case bool => exact h ▸ .bool
      case str => exact h ▸ .str
      case null => exact .null
      case array => exact .array (forall₂_of_mem (allAlike_iff.1 h) fun u hu w => ih u hu)
      case hash =>
        have hfound := entriesFound_iff.1 h.2
        obtain ⟨gs, hgs, hperm⟩ := exists_perm_of_found hkeys h.1 fun e he => by
          obtain ⟨w, hw, halike⟩ := hfound e he
          exact ⟨w, hw, ih e.2 (List.mem_map_of_mem he) halike⟩
        exact .hash hgs hperm
      case template => exact h ▸ .template
      case closure =>
        obtain ⟨rfl, h⟩ := h
        exact .closure (forall₂_of_mem (allAlike_iff.1 h) fun u hu w => ih u hu)
      case builtin => exact h ▸ .builtin
      case error => exact h ▸ .error

theorem alike_of_reordered {v w : Value} (hv : WellKeyed v) (h : Reordered v w) :
    v.alike w = true := by
  induction hv generalizing w with
  | mk hkeys _ ih =>
      cases h with
      | int | bool | str | null | template | builtin | error => simp [alike]
      | array h =>
          rw [alike]
          exact allAlike_iff.2 (forall₂_of_mem h fun u hu w => ih u hu)
      | closure h =>
          rw [alike, beq_self_eq_true, Bool.true_and]
          exact allAlike_iff.2 (forall₂_of_mem h fun u hu w => ih u hu)
      | @hash id id' es fs es' h hperm =>
          have hkeys' : (es'.map Prod.fst).Nodup := by
            rw [← (hperm.map Prod.fst).nodup_iff, ← Reordered.keys_eq h]
            exact hkeys
          rw [alike, Bool.and_eq_true, beq_iff_eq, entriesFound_iff]
          refine ⟨h.length_eq.trans hperm.length_eq, fun e he => ?_⟩
          obtain ⟨w, hw, hew⟩ := Reordered.exists_of_mem h he
          exact ⟨w, lookup?_eq_some_of_mem hkeys' (hperm.subset hw),
            ih e.2 (List.mem_map_of_mem he) hew⟩

/-- Structural equality is an equivalence of the values whose hashes have different keys. It holds
between two of them exactly if they differ at most in the order of the entries of hashes, at any
depth, and in the identities of their objects. -/
theorem alike_equivalence :
    Equivalence (fun v w : {v : Value // WellKeyed v} => v.1.alike w.1 = true) ∧
      ∀ v w : {v : Value // WellKeyed v}, v.1.alike w.1 = true ↔ Reordered v.1 w.1 := by
  have hiff (v w : {v : Value // WellKeyed v}) : v.1.alike w.1 = true ↔ Reordered v.1 w.1 :=
    ⟨reordered_of_alike v.2, alike_of_reordered v.2⟩
  refine ⟨⟨fun v => ?_, fun {v w} h => ?_, fun {u v w} huv hvw => ?_⟩, hiff⟩
  · rw [hiff]
    exact .refl v.1
  · rw [hiff] at h ⊢
    exact h.symm
  · rw [hiff] at huv hvw ⊢
    exact huv.trans hvw

/-- A hash inside an array, and a copy of it with its entries in the other order. -/
theorem alike_equivalence_nested :
    let v : Value := .array 0 [.hash 1 [(.str "a", .array 2 []), (.int 1, .bool true)]]
    let w : Value := .array 5 [.hash 3 [(.int 1, .bool true), (.str "a", .array 4 [])]]
    WellKeyed v ∧ WellKeyed w ∧ v.alike w = true ∧ w.alike v = true := by
  intro v w
  have hplain {u : Value} (hkeys : u.keys = []) (hparts : u.parts = []) : WellKeyed u :=
    .mk (by simp [hkeys]) (by simp [hparts])
  have hv : WellKeyed v := .mk (by decide) <| List.forall_mem_singleton.2 <|
    .mk (by decide) <| List.forall_mem_cons.2
      ⟨hplain rfl rfl, List.forall_mem_singleton.2 (hplain rfl rfl)⟩
  have hw : WellKeyed w := .mk (by decide) <| List.forall_mem_singleton.2 <|
    .mk (by decide) <| List.forall_mem_cons.2
      ⟨hplain rfl rfl, List.forall_mem_singleton.2 (hplain rfl rfl)⟩
  have hvw : Reordered v w :=
    .array (.cons (.hash (.cons (.mk (.array .nil)) (.cons (.mk .bool) .nil)) (.swap _ _ _)) .nil)
  have halike : v.alike w = true := (alike_equivalence.2 ⟨v, hv⟩ ⟨w, hw⟩).2 hvw
  exact ⟨hv, hw, halike, alike_equivalence.1.symm (x := ⟨v, hv⟩) (y := ⟨w, hw⟩) halike⟩

end Value

end Monkey
