import Monkey.Proofs.Encoding
import Monkey.Proofs.Relocation

/-!
# Edits of a stream under construction

A buffer remembers the last two instructions that it was given. When the last one is taken back, the
one before becomes the last, and of the one before that nothing is known any more. So what a buffer
says about its end is right only if a second instruction is never taken back without a new one in
between.

`Sheet` is a buffer together with its jumps: those that wait for a target, and those that have
got one. `Sheet.Writes` relates a sheet to the instructions that stand in its stream, and says what
has to hold for the next edit: if the last instruction is a pop, then the buffer knows the one
before it, which is no pop, and no jump goes past the pop. Each edit keeps this, under a condition
that can be read off the buffer.
-/

namespace Monkey

/-! ## Streams of instructions -/

/-- The stream of instructions in a row. -/
def Code.ofList (is : List Instruction) : Code :=
  (spell is).toArray

/-- The last of some instructions, and where it starts. -/
def Emitted.lastOf (is : List Instruction) : Option Emitted :=
  is.getLast?.map fun i => ⟨i.opcode, (spell is.dropLast).length⟩

/-- A jump with another target. -/
def Instruction.retarget (target : Nat) : Instruction → Instruction
  | .jump _ => .jump target
  | .jumpUnless _ => .jumpUnless target
  | i => i

theorem Instruction.opcode_retarget (target : Nat) (i : Instruction) :
    (i.retarget target).opcode = i.opcode := by
  cases i <;> rfl

section

variable {is is' : List Instruction} {i j : Instruction} {lo ip target : Nat}

theorem Instruction.target?_retarget (h : i.target?.isSome) :
    (i.retarget target).target? = some target := by
  cases i <;> first | rfl | cases h

theorem Instruction.encode_retarget (h : i.target?.isSome) :
    (i.retarget target).encode = i.opcode.encode [target] := by
  cases i <;> first | rfl | cases h

theorem Instruction.fits_retarget (h : i.target?.isSome) (hle : target ≤ 65535) :
    (i.retarget target).Fits := by
  cases i <;> first | exact Codegen.fits_wide rfl rfl hle | cases h

theorem length_spell_retarget (target : Nat) (j : Instruction) (before after : List Instruction) :
    (spell (before ++ j.retarget target :: after)).length =
      (spell (before ++ j :: after)).length := by
  simp only [spell_append, spell_cons, List.length_append, Instruction.length_encode,
    Instruction.opcode_retarget]

theorem Code.size_ofList (is : List Instruction) : (Code.ofList is).size = (spell is).length :=
  List.size_toArray

theorem Code.ofList_append (is is' : List Instruction) :
    Code.ofList (is ++ is') = Code.ofList is ++ spell is' := by
  apply Array.toList_inj.1
  simp [Code.ofList, spell_append]

theorem Emitted.lastOf_concat (is : List Instruction) (i : Instruction) :
    lastOf (is ++ [i]) = some ⟨i.opcode, (spell is).length⟩ := by
  simp [lastOf]

theorem Emitted.lastOf_retarget (target : Nat) (j : Instruction)
    (before after : List Instruction) :
    lastOf (before ++ j.retarget target :: after) = lastOf (before ++ j :: after) := by
  rcases List.eq_nil_or_concat after with rfl | ⟨after, last, rfl⟩
  · rw [lastOf_concat, lastOf_concat, Instruction.opcode_retarget]
  · rw [List.concat_eq_append, ← List.cons_append, ← List.cons_append, ← List.append_assoc,
      ← List.append_assoc, lastOf_concat, lastOf_concat, length_spell_retarget]

theorem locate_append (lo : Nat) (is is' : List Instruction) :
    locate lo (is ++ is') = locate lo is ++ locate (lo + (spell is).length) is' := by
  induction is generalizing lo with
  | nil => rfl
  | cons i is ih =>
      rw [List.cons_append, locate, ih, locate, spell_cons, List.length_append, i.length_encode,
        Nat.add_assoc]
      rfl

/-- An instruction of a stream, with what stands before it and behind it. -/
theorem exists_split_of_mem_locate (h : (ip, i) ∈ locate lo is) :
    ∃ before after, is = before ++ i :: after ∧ ip = lo + (spell before).length := by
  induction is generalizing lo with
  | nil => cases h
  | cons j is ih =>
      rcases List.mem_cons.1 h with heq | h
      · cases heq
        exact ⟨[], is, rfl, rfl⟩
      · obtain ⟨before, after, rfl, rfl⟩ := ih h
        refine ⟨j :: before, after, rfl, ?_⟩
        rw [spell_cons, List.length_append, j.length_encode, Nat.add_assoc]

theorem lt_of_mem_locate (h : (ip, i) ∈ locate 0 is) : ip < (spell is).length := by
  obtain ⟨before, after, rfl, rfl⟩ := exists_split_of_mem_locate h
  have hpos := i.size_pos
  simp only [spell_append, spell_cons, List.length_append, i.length_encode]
  omega

theorem mem_locate_concat (h : (ip, i) ∈ locate 0 is) (j : Instruction) :
    (ip, i) ∈ locate 0 (is ++ [j]) := by
  rw [locate_append]
  exact List.mem_append_left _ h

/-- A pop at the end is none of the jumps. -/
theorem mem_locate_of_jump (h : (ip, i) ∈ locate 0 (is ++ [.pop])) (hjump : i.target?.isSome) :
    (ip, i) ∈ locate 0 is := by
  rw [locate_append] at h
  rcases List.mem_append.1 h with h | h
  · exact h
  · cases List.mem_singleton.1 h
    cases hjump

/-- A jump that gets a target leaves the other instructions in their places. -/
theorem mem_locate_retarget {before after : List Instruction}
    (h : (ip, i) ∈ locate 0 (before ++ j :: after)) (hne : ip ≠ (spell before).length) :
    (ip, i) ∈ locate 0 (before ++ j.retarget target :: after) := by
  rw [locate_append, locate, Nat.zero_add] at h ⊢
  rw [Instruction.opcode_retarget]
  rcases List.mem_append.1 h with h | h
  · exact List.mem_append_left _ h
  · rcases List.mem_cons.1 h with heq | h
    · cases heq
      exact absurd rfl hne
    · exact List.mem_append_right _ (List.mem_cons_of_mem _ h)

/-- A stream that was written falls into the instructions that were written. -/
theorem Code.decode_ofList (hfits : ∀ i ∈ is, i.Fits) :
    (Code.ofList is).decode = some (locate 0 is) := by
  have hcode : Code.ofList is = (#[] : Code) ++ spell is := by
    rw [← List.nil_append is, Code.ofList_append]
    rfl
  have htiles := tiles_locate (hcode ▸ Code.has_append #[] (spell is)) hfits
  exact htiles.decodeFrom_eq (by rw [Code.size_ofList, Array.size_empty, Nat.zero_add])

theorem getLast?_locate_concat (is : List Instruction) (i : Instruction) :
    (locate 0 (is ++ [i])).getLast? = some ((spell is).length, i) := by
  rw [locate_append, Nat.zero_add, locate, locate, List.getLast?_concat]

end

/-! ## Sheets -/

/-- A stream under construction and the jumps in it. -/
structure Sheet where
  buffer : Buffer := {}
  /-- The offsets of the jumps whose target is not known yet. -/
  pending : List Nat := []
  /-- The offsets of the jumps that were given a target, each with the target. -/
  landed : List (Nat × Nat) := []

/-- Makes a change. -/
def Sheet.edit (s : Sheet) : Edit → Sheet
  | .emit i =>
      { s with
        buffer := s.buffer.emit i
        pending := if i.target?.isSome then s.buffer.offset :: s.pending else s.pending }
  | .dropLast => { s with buffer := s.buffer.dropLast }
  | .returnLast => { s with buffer := s.buffer.returnLast }
  | .patch offset target =>
      { buffer := s.buffer.patch offset target
        pending := s.pending.erase offset
        landed := (offset, target) :: s.landed }

theorem Sheet.buffer_edit (s : Sheet) (change : Edit) :
    (s.edit change).buffer = s.buffer.edit change := by
  cases change <;> rfl

/-- The stream falls into whole instructions, and what is remembered as the last one is: nothing
just if the stream is empty, else the instruction that ends the stream. -/
def Buffer.Truthful (b : Buffer) : Prop :=
  ∃ listing, b.code.decode = some listing ∧ (b.last = none ↔ b.code = #[]) ∧
    ∀ last, b.last = some last →
      (∃ i, listing.getLast? = some (last.offset, i)) ∧
      b.code[last.offset]? = some last.opcode.toByte ∧
      last.offset + last.opcode.size = b.code.size

/-- What is taken back is a pop at the end of the stream. Each jump that was given a target is still
in the stream with that target, and does not go past the new end. -/
def Sheet.Retracts (s : Sheet) : Prop :=
  ∃ listing, s.buffer.dropLast.code.decode = some listing ∧
    s.buffer.code.decode = some (listing ++ [(s.buffer.dropLast.code.size, .pop)]) ∧
    ∀ p ∈ s.landed, ∃ jump, (p.1, jump) ∈ listing ∧ jump.target? = some p.2 ∧
      p.2 ≤ s.buffer.dropLast.code.size

namespace Sheet

/-- The end of the stream can be taken back: the buffer knows the instruction before it, which is no
pop, and no jump goes past it. -/
structure Rests (s : Sheet) (before : List Instruction) : Prop where
  previous : s.buffer.previous = Emitted.lastOf before
  single : before.getLast? ≠ some .pop
  landed : ∀ p ∈ s.landed, p.2 ≤ (spell before).length

/-- The stream of the sheet consists of these instructions. -/
structure Writes (s : Sheet) (is : List Instruction) : Prop where
  code : s.buffer.code = Code.ofList is
  fits : ∀ i ∈ is, i.Fits
  last : s.buffer.last = Emitted.lastOf is
  rests : ∀ before, is = before ++ [.pop] → s.Rests before
  pending : ∀ offset ∈ s.pending, ∃ i, (offset, i) ∈ locate 0 is ∧ i.target?.isSome
  landed : ∀ p ∈ s.landed, ∃ i, (p.1, i) ∈ locate 0 is ∧ i.target? = some p.2 ∧
    p.2 ≤ (spell is).length
  distinct : (s.pending ++ s.landed.map Prod.fst).Nodup

namespace Writes

variable {s : Sheet} {is before : List Instruction} {i : Instruction}

theorem empty : Writes {} [] where
  code := rfl
  fits := List.forall_mem_nil _
  last := rfl
  rests before h := by simp at h
  pending := List.forall_mem_nil _
  landed := List.forall_mem_nil _
  distinct := List.nodup_nil

theorem size_code (h : s.Writes is) : s.buffer.code.size = (spell is).length := by
  rw [h.code, Code.size_ofList]

/-- All jumps of the sheet stand in the stream. -/
theorem lt_of_mem (h : s.Writes is) {offset : Nat}
    (hmem : offset ∈ s.pending ++ s.landed.map Prod.fst) : offset < (spell is).length := by
  rcases List.mem_append.1 hmem with hmem | hmem
  · obtain ⟨i, hi, -⟩ := h.pending offset hmem
    exact lt_of_mem_locate hi
  · obtain ⟨p, hp, rfl⟩ := List.mem_map.1 hmem
    obtain ⟨i, hi, -, -⟩ := h.landed p hp
    exact lt_of_mem_locate hi

theorem endsWith_pop (h : s.Writes is) :
    s.buffer.endsWith .pop = true ↔ ∃ before, is = before ++ [.pop] := by
  rw [Buffer.endsWith, h.last]
  constructor
  · intro hpop
    rcases List.eq_nil_or_concat is with rfl | ⟨before, i, rfl⟩
    · cases hpop
    · rw [List.concat_eq_append, Emitted.lastOf_concat] at hpop
      cases i <;> first | exact ⟨before, List.concat_eq_append⟩ | cases hpop
  · rintro ⟨before, rfl⟩
    rw [Emitted.lastOf_concat]
    rfl

theorem getLast?_ne_pop (h : s.Writes is) (hpop : s.buffer.endsWith .pop = false) :
    is.getLast? ≠ some .pop := by
  intro hlast
  obtain ⟨before, rfl⟩ := List.getLast?_eq_some_iff.1 hlast
  rw [h.endsWith_pop.2 ⟨before, rfl⟩] at hpop
  cases hpop

/-! ## One lemma for each edit -/

theorem emit (h : s.Writes is) (hfit : i.Fits)
    (hpop : i = .pop → s.buffer.endsWith .pop = false) :
    (s.edit (.emit i)).Writes (is ++ [i]) where
  code := by
    show s.buffer.code ++ i.encode = _
    rw [h.code, Code.ofList_append, spell_singleton]
  fits := List.forall_mem_append.2 ⟨h.fits, List.forall_mem_singleton.2 hfit⟩
  last := by
    rw [Emitted.lastOf_concat, ← h.size_code]
    rfl
  rests before heq := by
    obtain ⟨rfl, hi⟩ := List.append_inj' heq rfl
    cases hi
    refine ⟨h.last, h.getLast?_ne_pop (hpop rfl), fun p hp => ?_⟩
    obtain ⟨-, -, -, hle⟩ := h.landed p hp
    exact hle
  pending offset hmem := by
    have hold : offset ∈ s.pending → ∃ j, (offset, j) ∈ locate 0 (is ++ [i]) ∧
        j.target?.isSome := by
      intro hmem
      obtain ⟨j, hj, hjump⟩ := h.pending offset hmem
      exact ⟨j, mem_locate_concat hj i, hjump⟩
    have hpending : (s.edit (.emit i)).pending =
        if i.target?.isSome then s.buffer.offset :: s.pending else s.pending := rfl
    rw [hpending] at hmem
    split at hmem
    · next hjump =>
        rcases List.mem_cons.1 hmem with rfl | hmem
        · refine ⟨i, List.mem_of_getLast? ?_, hjump⟩
          rw [getLast?_locate_concat, Buffer.offset, h.size_code]
        · exact hold hmem
    · exact hold hmem
  landed p hp := by
    obtain ⟨j, hj, htarget, hle⟩ := h.landed p hp
    refine ⟨j, mem_locate_concat hj i, htarget, ?_⟩
    rw [spell_append, List.length_append]
    omega
  distinct := by
    show ((if i.target?.isSome then s.buffer.offset :: s.pending else s.pending) ++
      s.landed.map Prod.fst).Nodup
    split
    · -- the new jump stands behind all others
      rw [List.cons_append, List.nodup_cons]
      refine ⟨fun hmem => ?_, h.distinct⟩
      have hlt := h.lt_of_mem hmem
      rw [Buffer.offset, h.size_code] at hlt
      exact Nat.lt_irrefl _ hlt
    · exact h.distinct

theorem dropLast_eq (h : s.Writes (before ++ [.pop])) :
    s.buffer.dropLast =
      { s.buffer with code := Code.ofList before, last := Emitted.lastOf before } := by
  have hrests := h.rests before rfl
  have htruncate : Code.truncate s.buffer.code (spell before).length = Code.ofList before := by
    rw [h.code, Code.ofList_append, ← Code.size_ofList]
    exact Code.truncate_append _ _
  rw [Buffer.dropLast, h.last, Emitted.lastOf_concat]
  simp only [htruncate, hrests.previous]

/-- Taking a pop back uncovers the instruction before it. -/
theorem dropLast (h : s.Writes (before ++ [.pop])) : (s.edit .dropLast).Writes before := by
  have hbuffer : (s.edit .dropLast).buffer =
      { s.buffer with code := Code.ofList before, last := Emitted.lastOf before } := h.dropLast_eq
  have hrests := h.rests before rfl
  have hfits := List.forall_mem_append.1 h.fits
  refine ⟨by rw [hbuffer], hfits.1, by rw [hbuffer], ?_, ?_, ?_, h.distinct⟩
  · rintro before' rfl
    exact absurd List.getLast?_concat hrests.single
  · intro offset hmem
    obtain ⟨j, hj, hjump⟩ := h.pending offset hmem
    exact ⟨j, mem_locate_of_jump hj hjump, hjump⟩
  · intro p hp
    obtain ⟨j, hj, htarget, -⟩ := h.landed p hp
    have hjump := Option.isSome_of_eq_some htarget
    exact ⟨j, mem_locate_of_jump hj hjump, htarget, hrests.landed p hp⟩

/-- A pop that becomes a return takes as much room. -/
theorem returnLast (h : s.Writes (before ++ [.pop])) :
    (s.edit .returnLast).Writes (before ++ [.returnValue]) := by
  have hbuffer : (s.edit .returnLast).buffer =
      { s.buffer with
        code := Code.ofList (before ++ [.returnValue])
        last := Emitted.lastOf (before ++ [.returnValue]) } := by
    have hover : Code.overwrite s.buffer.code (spell before).length
        Instruction.returnValue.encode = Code.ofList (before ++ [.returnValue]) := by
      rw [h.code, Code.ofList_append, Code.ofList_append, ← Code.size_ofList, spell_singleton,
        spell_singleton]
      exact Code.overwrite_append _ _ _
    show s.buffer.returnLast = _
    rw [Buffer.returnLast, h.last, Emitted.lastOf_concat, Emitted.lastOf_concat]
    simp only [hover]
    rfl
  have hfits := List.forall_mem_append.1 h.fits
  refine ⟨by rw [hbuffer],
    List.forall_mem_append.2 ⟨hfits.1, List.forall_mem_singleton.2 (Codegen.fits_plain rfl rfl)⟩,
    by rw [hbuffer], ?_, ?_, ?_, h.distinct⟩
  · intro before' heq
    cases (List.append_inj' heq rfl).2
  · intro offset hmem
    obtain ⟨j, hj, hjump⟩ := h.pending offset hmem
    exact ⟨j, mem_locate_concat (mem_locate_of_jump hj hjump) _, hjump⟩
  · intro p hp
    obtain ⟨j, hj, htarget, hle⟩ := h.landed p hp
    have hjump := Option.isSome_of_eq_some htarget
    refine ⟨j, mem_locate_concat (mem_locate_of_jump hj hjump) _, htarget, hle.trans_eq ?_⟩
    simp only [spell_append, List.length_append, spell_singleton, Instruction.length_encode]
    rfl

theorem patch_eq {jump : Instruction} {after : List Instruction} {target : Nat}
    (h : s.Writes (before ++ jump :: after)) (hjump : jump.target?.isSome) :
    s.buffer.patch (spell before).length target =
      { s.buffer with code := Code.ofList (before ++ jump.retarget target :: after) } := by
  have hsplit (j : Instruction) : Code.ofList (before ++ j :: after) =
      Code.ofList before ++ j.encode ++ spell after := by
    rw [Code.ofList_append, spell_cons, Code.append_append]
  have hopcode : s.buffer.code[(spell before).length]?.bind Opcode.ofByte? = some jump.opcode := by
    have hfit := h.fits jump (List.mem_append_right _ List.mem_cons_self)
    rw [h.code, hsplit, ← Code.size_ofList]
    exact (Code.holds_of_has (Code.has_middle _ _ _) hfit).opcode
  have hlength : (jump.retarget target).encode.length = jump.encode.length := by
    rw [Instruction.length_encode, Instruction.length_encode, Instruction.opcode_retarget]
  rw [Buffer.patch, hopcode]
  simp only [← Instruction.encode_retarget hjump, h.code, hsplit, ← Code.size_ofList,
    Code.overwrite_middle _ _ hlength]

/-- A jump lands at the end of the stream. -/
theorem patch {offset : Nat} (h : s.Writes is) (hmem : offset ∈ s.pending)
    (hle : s.buffer.offset ≤ 65535) (hpop : s.buffer.endsWith .pop = false) :
    ∃ is', (s.edit (.patch offset s.buffer.offset)).Writes is' := by
  obtain ⟨jump, hjump, hisjump⟩ := h.pending offset hmem
  obtain ⟨before, after, rfl, rfl⟩ := exists_split_of_mem_locate hjump
  rw [Nat.zero_add] at *
  have htarget : s.buffer.offset = (spell (before ++ jump :: after)).length := h.size_code
  have hbuffer : (s.edit (.patch (spell before).length s.buffer.offset)).buffer =
      { s.buffer with
        code := Code.ofList (before ++ jump.retarget s.buffer.offset :: after) } :=
    h.patch_eq hisjump
  have hlength := length_spell_retarget s.buffer.offset jump before after
  have hperm : (s.pending ++ s.landed.map Prod.fst).Perm
      (s.pending.erase (spell before).length ++
        (spell before).length :: s.landed.map Prod.fst) :=
    ((List.perm_cons_erase hmem).append_right _).trans List.perm_middle.symm
  have hdistinct := hperm.nodup_iff.1 h.distinct
  refine ⟨before ++ jump.retarget s.buffer.offset :: after, ?_, ?_, ?_, ?_, ?_, ?_, hdistinct⟩
  · rw [hbuffer]
  · obtain ⟨hbefore, hafter⟩ := List.forall_mem_append.1 h.fits
    exact List.forall_mem_append.2 ⟨hbefore, List.forall_mem_cons.2
      ⟨Instruction.fits_retarget hisjump hle, (List.forall_mem_cons.1 hafter).2⟩⟩
  · rw [hbuffer, Emitted.lastOf_retarget]
    exact h.last
  · -- the end of the stream has not changed, so it is no pop
    intro before' heq
    have hlast : s.buffer.last = some ⟨.pop, (spell before').length⟩ := by
      rw [h.last, ← Emitted.lastOf_retarget s.buffer.offset, heq, Emitted.lastOf_concat]
      rfl
    rw [Buffer.endsWith, hlast] at hpop
    cases hpop
  · intro offset hmem
    have hne : offset ≠ (spell before).length := by
      rintro rfl
      exact (List.nodup_append.1 hdistinct).2.2 _ hmem _ List.mem_cons_self rfl
    obtain ⟨j, hj, hjump⟩ := h.pending offset (List.mem_of_mem_erase hmem)
    exact ⟨j, mem_locate_retarget hj hne, hjump⟩
  · intro p hp
    rcases List.mem_cons.1 hp with rfl | hp
    · refine ⟨jump.retarget s.buffer.offset, ?_, Instruction.target?_retarget hisjump, ?_⟩
      · rw [locate_append, locate, Nat.zero_add]
        exact List.mem_append_right _ List.mem_cons_self
      · rw [hlength]
        exact htarget.le
    · have hne : p.1 ≠ (spell before).length := by
        intro heq
        have hrest := (List.nodup_cons.1 (List.nodup_append.1 hdistinct).2.1).1
        exact hrest (heq ▸ List.mem_map_of_mem hp)
      obtain ⟨j, hj, hjtarget, hjle⟩ := h.landed p hp
      exact ⟨j, mem_locate_retarget hj hne, hjtarget, hlength ▸ hjle⟩

/-! ## What the buffer says -/

theorem size_concat (h : s.Writes (before ++ [i])) :
    (spell before).length + i.opcode.size = s.buffer.code.size := by
  rw [h.size_code, spell_append, spell_singleton, List.length_append, i.length_encode]

/-- The last instruction starts with the byte of its opcode. -/
theorem getElem?_concat (h : s.Writes (before ++ [i])) :
    s.buffer.code[(spell before).length]? = some i.opcode.toByte := by
  have hfit := h.fits i (List.mem_append_right _ List.mem_cons_self)
  have hhas : s.buffer.code.Has (spell before).length i.encode := by
    rw [h.code, Code.ofList_append, spell_singleton, ← Code.size_ofList]
    exact Code.has_append _ _
  obtain ⟨byte, hbyte, hop⟩ := Option.bind_eq_some_iff.1 (Code.holds_of_has hhas hfit).opcode
  rw [hbyte, Opcode.ofByte?_eq_some.1 hop]

theorem truthful (h : s.Writes is) : s.buffer.Truthful := by
  refine ⟨locate 0 is, by rw [h.code, Code.decode_ofList h.fits], ?_⟩
  rcases List.eq_nil_or_concat is with rfl | ⟨before, i, rfl⟩
  · have hnone : s.buffer.last = none := h.last
    refine ⟨⟨fun _ => h.code, fun _ => hnone⟩, fun last hlast => ?_⟩
    rw [hnone] at hlast
    cases hlast
  · rw [List.concat_eq_append] at *
    have hsome : s.buffer.last = some ⟨i.opcode, (spell before).length⟩ := by
      rw [h.last, Emitted.lastOf_concat]
    have hpos := i.size_pos
    have hsize := h.size_concat
    refine ⟨⟨fun hnone => ?_, fun hempty => ?_⟩, fun last hlast => ?_⟩
    · rw [hsome] at hnone
      cases hnone
    · rw [hempty, Array.size_empty] at hsize
      omega
    · rw [hsome] at hlast
      cases hlast
      exact ⟨⟨i, getLast?_locate_concat before i⟩, h.getElem?_concat, hsize⟩

theorem retracts (h : s.Writes (before ++ [.pop])) : s.Retracts := by
  have hbefore := (List.forall_mem_append.1 h.fits).1
  have hsize : s.buffer.dropLast.code.size = (spell before).length := by
    rw [h.dropLast_eq, Code.size_ofList]
  refine ⟨locate 0 before, ?_, ?_, fun p hp => ?_⟩
  · rw [h.dropLast_eq, Code.decode_ofList hbefore]
  · rw [h.code, Code.decode_ofList h.fits, locate_append, hsize, Nat.zero_add]
    rfl
  · obtain ⟨jump, hjump, htarget, hle⟩ := h.dropLast.landed p hp
    exact ⟨jump, hjump, htarget, hsize ▸ hle⟩

end Writes

/-! ## Sound sheets -/

/-- The stream of the sheet was written, and can be edited further. -/
def Sound (s : Sheet) : Prop :=
  ∃ is, s.Writes is

namespace Sound

variable {s : Sheet}

theorem truthful (h : s.Sound) : s.buffer.Truthful := by
  obtain ⟨is, h⟩ := h
  exact h.truthful

theorem emit (h : s.Sound) {i : Instruction} (hfit : i.Fits)
    (hpop : i = .pop → s.buffer.endsWith .pop = false) : (s.edit (.emit i)).Sound := by
  obtain ⟨is, h⟩ := h
  exact ⟨_, h.emit hfit hpop⟩

/-- No second pop can be taken back. -/
theorem dropLast (h : s.Sound) (hpop : s.buffer.endsWith .pop = true) :
    (s.edit .dropLast).Sound ∧ (s.edit .dropLast).buffer.endsWith .pop = false ∧ s.Retracts := by
  obtain ⟨is, h⟩ := h
  obtain ⟨before, rfl⟩ := h.endsWith_pop.1 hpop
  refine ⟨⟨before, h.dropLast⟩, ?_, h.retracts⟩
  rw [Bool.eq_false_iff]
  intro hagain
  obtain ⟨before', rfl⟩ := h.dropLast.endsWith_pop.1 hagain
  exact (h.rests _ rfl).single List.getLast?_concat

theorem returnLast (h : s.Sound) (hpop : s.buffer.endsWith .pop = true) :
    (s.edit .returnLast).Sound := by
  obtain ⟨is, h⟩ := h
  obtain ⟨before, rfl⟩ := h.endsWith_pop.1 hpop
  exact ⟨_, h.returnLast⟩

theorem patch (h : s.Sound) {offset : Nat} (hmem : offset ∈ s.pending)
    (hle : s.buffer.offset ≤ 65535) (hpop : s.buffer.endsWith .pop = false) :
    (s.edit (.patch offset s.buffer.offset)).Sound := by
  obtain ⟨is, h⟩ := h
  exact h.patch hmem hle hpop

end Sound

end Sheet

end Monkey
