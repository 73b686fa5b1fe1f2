import Mathlib
import Monkey.Machine.Operators

/-!
# Hashes are maps in which the last write wins

A hash is built from keys and values that come in turn. The keys of the table are not the objects
that a program writes down: an object is turned into a `Key` first. `Key.value` leads back to the
object, and two keys are the same exactly if the language's `==` holds between their objects, so no
two kinds of keys collide and the table agrees with `==`.

`gather` builds the entries from pairs whose keys are known to be usable. What holds of one
insertion (the keys stay different, a new key goes to the end, a look-up finds what was written)
carries over to all of them by an induction from the last pair backwards, since the last pair is the
one that wins.
-/

namespace Monkey

variable {F : Type}

/-! ## Keys and the objects they stand for -/

theorem Key.key?_value (key : Key) : (key.value : ValueOf F).key? = some key := by
  cases key <;> rfl

theorem ValueOf.value_of_key? {v : ValueOf F} {key : Key} (h : v.key? = some key) :
    key.value = v := by
  cases v <;> cases h <;> rfl

/-- Numbers, truth values and strings can be keys. -/
def ValueOf.usable (v : ValueOf F) : Bool :=
  v.kind = .int ∨ v.kind = .bool ∨ v.kind = .str

theorem ValueOf.isSome_key? (v : ValueOf F) : v.key?.isSome = v.usable := by
  cases v <;> rfl

/-- The language's `==` between the objects of keys is equality of the keys. -/
theorem Key.identical_value (a b : Key) :
    (a.value : ValueOf F).identical b.value = decide (a = b) := by
  cases a <;> cases b <;> simp [Key.value, ValueOf.identical, beq_eq_decide]

/-- Dropping repeated objects is dropping repeated keys. -/
theorem eraseDupsBy_map_value (keys : List Key) :
    (keys.map Key.value).eraseDupsBy ValueOf.identical =
      (keys.eraseDups.map Key.value : List (ValueOf F)) := by
  -- each step filters the rest of the list, so the induction is on the length
  induction hn : keys.length using Nat.strongRecOn generalizing keys with
  | ind n ih =>
      cases keys with
      | nil => rfl
      | cons key rest =>
          have hfilter : (rest.map Key.value).filter
                (fun v => decide (ValueOf.identical v (key.value : ValueOf F) = false)) =
              (rest.filter fun k => !k == key).map Key.value := by
            rw [List.filter_map]
            congr 1
            refine List.filter_congr fun k _ => ?_
            simp [Function.comp, Key.identical_value, beq_eq_decide]
          have hlt : (rest.filter fun k => !k == key).length < n := by
            have hle := List.length_filter_le (fun k => !k == key) rest
            rw [List.length_cons] at hn
            omega
          rw [List.map_cons, List.eraseDupsBy_cons, List.eraseDups_cons, List.map_cons, hfilter,
            ih _ hlt _ rfl]

/-! ## One insertion -/

section Insertion

variable {key k : Key} {v : ValueOf F} {es : List (Key × ValueOf F)}

/-- A key that is there keeps its place, and a new one goes to the end. -/
theorem keys_insertEntry (key : Key) (v : ValueOf F) (es : List (Key × ValueOf F)) :
    (insertEntry key v es).map Prod.fst =
      if key ∈ es.map Prod.fst then es.map Prod.fst else es.map Prod.fst ++ [key] := by
  induction es with
  | nil => rfl
  | cons entry rest ih =>
      rw [insertEntry]
      by_cases h : entry.1 = key
      · simp [h]
      · have hne : key ≠ entry.1 := Ne.symm h
        rw [if_neg h, List.map_cons, ih, List.map_cons]
        by_cases hmem : key ∈ rest.map Prod.fst
        · rw [if_pos hmem, if_pos (List.mem_cons_of_mem _ hmem)]
        · rw [if_neg hmem, if_neg (List.not_mem_cons_of_ne_of_not_mem hne hmem), List.cons_append]

theorem nodup_keys_insertEntry (h : (es.map Prod.fst).Nodup) :
    ((insertEntry key v es).map Prod.fst).Nodup := by
  rw [keys_insertEntry]
  split
  · exact h
  · next hnew =>
      rw [← List.concat_eq_append]
      exact h.concat hnew

theorem lookup?_insertEntry :
    lookup? k (insertEntry key v es) = if k = key then some v else lookup? k es := by
  induction es with
  | nil =>
      by_cases h : k = key
      · simp [insertEntry, lookup?, h]
      · simp [insertEntry, lookup?, h, Ne.symm h]
  | cons entry rest ih =>
      rw [insertEntry]
      by_cases h : entry.1 = key
      · by_cases hk : k = key
        · simp [lookup?, h, hk]
        · simp [lookup?, h, hk, Ne.symm hk]
      · rw [if_neg h, lookup?, lookup?, ih]
        by_cases hk : entry.1 = k
        · have hne : k ≠ key := fun heq => h (hk.trans heq)
          simp [hk, hne]
        · simp [hk]

/-- Where keys are different, each entry is the one that its key finds. -/
theorem lookup?_eq_some_of_mem (hnodup : (es.map Prod.fst).Nodup) (h : (k, v) ∈ es) :
    lookup? k es = some v := by
  induction es with
  | nil => cases h
  | cons entry rest ih =>
      rw [List.map_cons, List.nodup_cons] at hnodup
      rw [lookup?]
      rcases List.mem_cons.1 h with rfl | hrest
      · exact if_pos rfl
      · have hne : entry.1 ≠ k := fun heq =>
          hnodup.1 (heq ▸ List.mem_map_of_mem hrest)
        rw [if_neg hne]
        exact ih hnodup.2 hrest

theorem mem_of_lookup?_eq_some (h : lookup? k es = some v) : (k, v) ∈ es := by
  induction es with
  | nil => cases h
  | cons entry rest ih =>
      rw [lookup?] at h
      split at h
      · next hkey =>
          cases h
          exact hkey ▸ List.mem_cons_self
      · exact List.mem_cons_of_mem _ (ih h)

end Insertion

/-! ## All insertions -/

/-- The entries after all insertions, in order. -/
def gather (pairs : List (Key × ValueOf F)) : List (Key × ValueOf F) :=
  pairs.foldl (fun es p => insertEntry p.1 p.2 es) []

theorem gather_concat (pairs : List (Key × ValueOf F)) (p : Key × ValueOf F) :
    gather (pairs ++ [p]) = insertEntry p.1 p.2 (gather pairs) := by
  rw [gather, List.foldl_append]
  rfl

theorem nodup_keys_gather (pairs : List (Key × ValueOf F)) :
    ((gather pairs).map Prod.fst).Nodup := by
  induction pairs using List.reverseRecOn with
  | nil => exact List.nodup_nil
  | append_singleton pairs p ih =>
      rw [gather_concat]
      exact nodup_keys_insertEntry ih

theorem keys_gather (pairs : List (Key × ValueOf F)) :
    (gather pairs).map Prod.fst = (pairs.map Prod.fst).eraseDups := by
  induction pairs using List.reverseRecOn with
  | nil => rfl
  | append_singleton pairs p ih =>
      rw [gather_concat, keys_insertEntry, ih, List.map_append, List.eraseDups_append]
      by_cases h : p.1 ∈ pairs.map Prod.fst
      · rw [if_pos (List.mem_eraseDups.2 h)]
        simp [h, List.removeAll]
      · rw [if_neg (fun hmem => h (List.mem_eraseDups.1 hmem))]
        simp [h, List.removeAll, List.eraseDups_cons]

/-- A look-up finds the value of the last pair with the key. -/
theorem lookup?_gather (k : Key) (pairs : List (Key × ValueOf F)) :
    lookup? k (gather pairs) = (pairs.findRev? fun p => decide (p.1 = k)).map Prod.snd := by
  induction pairs using List.reverseRecOn with
  | nil => rfl
  | append_singleton pairs p ih =>
      rw [gather_concat, lookup?_insertEntry, ih, List.findRev?_eq_find?_reverse,
        List.findRev?_eq_find?_reverse, List.reverse_append]
      by_cases h : p.1 = k
      · simp [h]
      · simp [h, Ne.symm h]

/-- Each entry is the last pair with its key. -/
theorem findRev?_of_mem_gather {pairs : List (Key × ValueOf F)} {e : Key × ValueOf F}
    (h : e ∈ gather pairs) : (pairs.findRev? fun p => decide (p.1 = e.1)) = some e := by
  have hlookup := lookup?_eq_some_of_mem (nodup_keys_gather pairs) h
  rw [lookup?_gather] at hlookup
  obtain ⟨p, hp, hvalue⟩ := Option.map_eq_some_iff.1 hlookup
  have hkey : p.1 = e.1 := by
    rw [List.findRev?_eq_find?_reverse] at hp
    simpa using List.find?_some hp
  rw [hp, Prod.ext hkey hvalue]

/-! ## Objects in turn -/

namespace ValueOf

/-- Keys and values in turn. -/
def inTurn (pairs : List (ValueOf F × ValueOf F)) : List (ValueOf F) :=
  pairs.flatMap fun p => [p.1, p.2]

/-- The keys with their values. A value that is left over is dropped. -/
def inPairs : List (ValueOf F) → List (ValueOf F × ValueOf F)
  | k :: v :: rest => (k, v) :: inPairs rest
  | _ => []

/-- A list of even length consists of keys and values in turn. -/
theorem inTurn_inPairs {objects : List (ValueOf F)} (h : Even objects.length) :
    inTurn (inPairs objects) = objects := by
  induction objects using List.twoStepInduction with
  | nil => rfl
  | singleton v => simp at h
  | cons_cons k v rest ih _ =>
      have hrest : Even rest.length := by
        simpa [Nat.even_add_one] using h
      have hcons : inTurn (inPairs (k :: v :: rest)) = k :: v :: inTurn (inPairs rest) := rfl
      rw [hcons, ih hrest]

/-- A pair as objects. -/
def ofPair (p : Key × ValueOf F) : ValueOf F × ValueOf F :=
  (p.1.value, p.2)

theorem exists_key_of_usable {v : ValueOf F} (h : v.usable) : ∃ key : Key, v = key.value := by
  rw [← isSome_key?] at h
  obtain ⟨key, hkey⟩ := Option.isSome_iff_exists.1 h
  exact ⟨key, (value_of_key? hkey).symm⟩

/-- Pairs with usable keys are those that come from keys. -/
theorem exists_ofPair {pairs : List (ValueOf F × ValueOf F)} (h : ∀ p ∈ pairs, p.1.usable) :
    ∃ keyed : List (Key × ValueOf F), pairs = keyed.map ofPair := by
  induction pairs with
  | nil => exact ⟨[], rfl⟩
  | cons p rest ih =>
      obtain ⟨hp, hrest⟩ := List.forall_mem_cons.1 h
      obtain ⟨key, hkey⟩ := exists_key_of_usable hp
      obtain ⟨keyed, rfl⟩ := ih hrest
      refine ⟨(key, p.2) :: keyed, ?_⟩
      rw [List.map_cons, ofPair, ← hkey]

theorem findRev?_map_ofPair (keyed : List (Key × ValueOf F)) (k : Key) :
    ((keyed.map ofPair).findRev? fun p => p.1.identical k.value) =
      (keyed.findRev? fun p => decide (p.1 = k)).map ofPair := by
  rw [List.findRev?_eq_find?_reverse, List.findRev?_eq_find?_reverse, ← List.map_reverse,
    List.find?_map]
  congr 2
  funext p
  exact Key.identical_value p.1 k

theorem collectEntries_ofPair (keyed done : List (Key × ValueOf F)) :
    collectEntries done (inTurn (keyed.map ofPair)) =
      .ok (keyed.foldl (fun es p => insertEntry p.1 p.2 es) done) := by
  induction keyed generalizing done with
  | nil => rfl
  | cons p keyed ih =>
      have hcons : inTurn ((p :: keyed).map ofPair) =
          p.1.value :: p.2 :: inTurn (keyed.map ofPair) := rfl
      rw [hcons, collectEntries, Key.key?_value]
      exact ih _

/-- The first key that is not usable is reported, whatever was collected before it. -/
theorem collectEntries_of_unusable {pairs : List (ValueOf F × ValueOf F)}
    {p : ValueOf F × ValueOf F} (h : (pairs.find? fun p => !p.1.usable) = some p)
    (done : List (Key × ValueOf F)) :
    collectEntries done (inTurn pairs) = .error (.unusableKey p.1.kind) := by
  induction pairs generalizing done with
  | nil => cases h
  | cons q rest ih =>
      have hcons : inTurn (q :: rest) = q.1 :: q.2 :: inTurn rest := rfl
      rw [hcons, collectEntries]
      cases hkey : q.1.key? with
      | none =>
          rw [List.find?_cons_of_pos (by simp [← isSome_key?, hkey])] at h
          cases h
          rfl
      | some key =>
          rw [List.find?_cons_of_neg (by simp [← isSome_key?, hkey])] at h
          exact ih h _

/-- Building a hash from keys and values in turn. If a key is not usable, the first such key is
reported with its kind. Otherwise the hash has different keys, in the order in which they first
occur. Indexing with any usable object finds the value of the last pair whose key is `==` to the
object, and null if there is no such pair; and each entry carries key and value of the last pair
with its key. -/
theorem collectEntries_last_write_wins (objects : List (ValueOf F))
    (heven : Even objects.length) :
    let pairs := inPairs objects
    inTurn pairs = objects ∧
      (∀ p, (pairs.find? fun p => !p.1.usable) = some p →
        collectEntries [] objects = .error (.unusableKey p.1.kind)) ∧
      ((∀ p ∈ pairs, p.1.usable) →
        ∃ entries, collectEntries [] objects = .ok entries ∧
          (entries.map Prod.fst).Nodup ∧
          entries.map (·.1.value) = (pairs.map Prod.fst).eraseDupsBy identical ∧
          (∀ id k, k.usable → atIndex (.hash id entries) k =
            .ok ((pairs.findRev? fun p => p.1.identical k).elim .null Prod.snd)) ∧
          ∀ e ∈ entries, (pairs.findRev? fun p => p.1.identical e.1.value) =
            some (e.1.value, e.2)) := by
  intro pairs
  have hobjects : objects = inTurn pairs := (inTurn_inPairs heven).symm
  refine ⟨hobjects.symm, fun p hp => ?_, fun husable => ?_⟩
  · rw [hobjects]
    exact collectEntries_of_unusable hp []
  obtain ⟨keyed, hkeyed⟩ := exists_ofPair husable
  refine ⟨gather keyed, ?_, nodup_keys_gather keyed, ?_, ?_, ?_⟩
  · rw [hobjects, hkeyed]
    exact collectEntries_ofPair keyed []
  · have hkeys : (keyed.map ofPair).map Prod.fst =
        ((keyed.map Prod.fst).map Key.value : List (ValueOf F)) := by
      rw [List.map_map, List.map_map]
      rfl
    rw [hkeyed, hkeys, eraseDupsBy_map_value, ← keys_gather, List.map_map]
    rfl
  · intro id k hk
    obtain ⟨key, rfl⟩ := exists_key_of_usable hk
    simp only [atIndex, Key.key?_value, lookup?_gather, hkeyed, findRev?_map_ofPair]
    cases keyed.findRev? fun p => decide (p.1 = key) <;> rfl
  · intro e he
    rw [hkeyed, findRev?_map_ofPair, findRev?_of_mem_gather he]
    rfl

/-- A key that comes twice, between keys of other kinds that look like it. -/
theorem collectEntries_last_write_wins_repeated :
    let objects : List Value :=
      [.int 1, .str "a", .bool true, .null, .str "1", .int 7, .int 1, .str "b"]
    Even objects.length ∧ (∀ p ∈ inPairs objects, p.1.usable) ∧
      ∃ entries, collectEntries [] objects = .ok entries ∧ (entries.map Prod.fst).Nodup ∧
        entries.map (·.1.value) = ([.int 1, .bool true, .str "1"] : List Value) ∧
        ∀ id, atIndex (.hash id entries) (.int 1) = .ok (.str "b") ∧
          atIndex (.hash id entries) (.bool false) = .ok .null := by
  intro objects
  have heven : Even objects.length := by decide
  have husable : ∀ p ∈ inPairs objects, p.1.usable := by simp [objects, inPairs, usable, kind]
  obtain ⟨-, -, hbuilt⟩ := collectEntries_last_write_wins objects heven
  obtain ⟨entries, hok, hnodup, hkeys, hindex, -⟩ := hbuilt husable
  refine ⟨heven, husable, entries, hok, hnodup, hkeys, fun id => ⟨?_, ?_⟩⟩
  · exact hindex id (.int 1) rfl
  · exact hindex id (.bool false) rfl

end ValueOf

end Monkey
