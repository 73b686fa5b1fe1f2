import Monkey.Instruction.Listing
import Monkey.Text.Line
import Monkey.Proofs.Encoding

/-!
# Listings say what is in a stream

A listing has one line for each segment of a stream, and the segments cover the stream: they lie one
behind the other from its first byte to its last, and only the last can lack bytes. So reading goes
on behind a byte that is no opcode without losing count, and the offset in front of each line is the
number of bytes that the lines before it are about.

The way back goes through words. A line is a list of words with blanks between them, no word has a
blank or a newline in it, and the words of a segment are those of no other segment. A segment that
lacks nothing says what its bytes are, so two streams of such segments have different listings.
-/

namespace Monkey

/-! ## Segments and their bytes -/

/-- Operands are read from their own bytes only. -/
theorem takeOperands_take {widths : List Nat} {n : Nat} (h : widths.sum ≤ n) (bytes : List UInt8) :
    takeOperands widths (bytes.take n) = takeOperands widths bytes := by
  induction widths generalizing n bytes with
  | nil => rfl
  | cons width widths ih =>
      rw [List.sum_cons] at h
      rw [takeOperands, takeOperands, List.take_take, List.drop_take, ih (by omega)]
      congr 3
      omega

namespace Opcode

theorem operands?_eq_ok {op : Opcode} {bytes : List UInt8} {operands : List Nat} :
    op.operands? bytes = .ok operands ↔
      op.operandSize ≤ bytes.length ∧ operands = takeOperands op.widths bytes := by
  rw [operands?]
  by_cases hle : op.operandSize ≤ bytes.length
  · simp [hle, eq_comm]
  · simp [hle]

theorem length_of_operands?_eq_error {op : Opcode} {bytes : List UInt8} {cause : DecodeError}
    (h : op.operands? bytes = .error cause) : bytes.length < op.operandSize := by
  by_contra hle
  have hok := operands?_eq_ok.2 ⟨Nat.le_of_not_lt hle, rfl⟩
  rw [h] at hok
  cases hok

end Opcode

namespace Segment

/-- A segment whose bytes are not all there. -/
def isTruncated : Segment → Bool
  | .truncated .. => true
  | _ => false

/-- The bytes are those that the segment is about. -/
def Covers : Segment → List UInt8 → Prop
  | .instruction op operands, bytes =>
      ∃ rest, bytes = op.toByte :: rest ∧ rest.length = op.operandSize ∧
        op.operands? rest = .ok operands
  | .undefined byte, bytes => Opcode.ofByte? byte = none ∧ bytes = [byte]
  | .truncated op available, bytes =>
      ∃ rest, bytes = op.toByte :: rest ∧ rest.length = available ∧ available < op.operandSize

/-- The bytes that a segment speaks of. A truncated one does not tell its operand bytes. -/
def spelling : Segment → List UInt8
  | .instruction op operands => op.encode operands
  | .undefined byte => [byte]
  | .truncated op _ => [op.toByte]

theorem Covers.eq_spelling {segment : Segment} {bytes : List UInt8} (h : segment.Covers bytes)
    (hwhole : segment.isTruncated = false) : bytes = segment.spelling := by
  cases segment with
  | undefined byte => exact h.2
  | truncated op available => cases hwhole
  | instruction op operands =>
      obtain ⟨rest, rfl, hlength, hoperands⟩ := h
      have hread : readHead (op.toByte :: rest) = .ok (some ((op, operands), op.size)) := by
        rw [readHead, Opcode.lookup, Opcode.ofByte?_toByte]
        simp only [bind, Except.bind, hoperands]
        rfl
      have hbytes := (encode_of_readHead hread).2
      have hdrop : (op.toByte :: rest).drop op.size = [] := by
        apply List.drop_eq_nil_of_le
        simp [Opcode.size, hlength, Nat.add_comm]
      rw [hdrop, List.append_nil] at hbytes
      exact hbytes

end Segment

/-- A segment with the bytes that it is about. -/
structure Stretch where
  segment : Segment
  bytes : List UInt8
  covers : segment.Covers bytes

namespace Stretch

/-- The segments of stretches that lie one behind the other from an offset on, each with the offset
of its first byte. -/
def locate : Nat → List Stretch → List (Nat × Segment)
  | _, [] => []
  | offset, s :: rest => (offset, s.segment) :: locate (offset + s.bytes.length) rest

theorem map_locate (offset : Nat) (stretches : List Stretch) :
    (locate offset stretches).map (·.2) = stretches.map (·.segment) := by
  induction stretches generalizing offset with
  | nil => rfl
  | cons s rest ih => simp [locate, ih]

/-- The stretches cover the bytes with no gap, and only the last of them may be truncated. -/
structure Partition (bytes : List UInt8) (stretches : List Stretch) : Prop where
  bytes_eq : stretches.flatMap (·.bytes) = bytes
  ended : ∀ s ∈ stretches.dropLast, s.segment.isTruncated = false

theorem Partition.nil : Partition [] [] :=
  ⟨rfl, by simp⟩

theorem Partition.cons {bytes : List UInt8} {stretches : List Stretch}
    (h : Partition bytes stretches) {s : Stretch} (hs : s.segment.isTruncated = false) :
    Partition (s.bytes ++ bytes) (s :: stretches) := by
  refine ⟨by simp [h.bytes_eq], ?_⟩
  cases stretches with
  | nil => simp
  | cons next rest =>
      rw [List.dropLast_cons_of_ne_nil (by simp)]
      exact List.forall_mem_cons.2 ⟨hs, h.ended⟩

theorem Partition.last (s : Stretch) : Partition s.bytes [s] :=
  ⟨by simp, by simp⟩

end Stretch

/-- A stream falls into stretches, and its segments are theirs. -/
theorem exists_partition_segmentsFrom (offset : Nat) (bytes : List UInt8)
    (done : List (Nat × Segment)) :
    ∃ stretches, Stretch.Partition bytes stretches ∧
      segmentsFrom offset bytes done = done.reverse ++ Stretch.locate offset stretches := by
  fun_induction segmentsFrom offset bytes done with
  | case1 offset done => exact ⟨[], .nil, by simp [Stretch.locate]⟩
  | case2 offset done byte rest hop ih =>
      obtain ⟨stretches, hpart, heq⟩ := ih
      let s : Stretch := ⟨.undefined byte, [byte], hop, rfl⟩
      have hwhole : s.segment.isTruncated = false := rfl
      exact ⟨s :: stretches, hpart.cons hwhole, by simp [heq, Stretch.locate, s]⟩
  | case3 offset done byte rest op hop operands hoperands ih =>
      obtain ⟨stretches, hpart, heq⟩ := ih
      obtain ⟨hle, rfl⟩ := Opcode.operands?_eq_ok.1 hoperands
      obtain rfl := Opcode.ofByte?_eq_some.1 hop
      have hlength : (rest.take op.operandSize).length = op.operandSize :=
        List.length_take_of_le hle
      have hown : op.operands? (rest.take op.operandSize) = .ok (takeOperands op.widths rest) := by
        rw [Opcode.operands?_eq_ok, takeOperands_take (Opcode.operandSize_eq_sum op).ge]
        exact ⟨hlength.ge, rfl⟩
      let s : Stretch := ⟨.instruction op (takeOperands op.widths rest),
        op.toByte :: rest.take op.operandSize, _, rfl, hlength, hown⟩
      have hwhole : s.segment.isTruncated = false := rfl
      refine ⟨s :: stretches, ?_, ?_⟩
      · have hbytes := hpart.cons hwhole
        rwa [List.cons_append, List.take_append_drop] at hbytes
      · have hsize : s.bytes.length = op.size := by
          rw [List.length_cons, hlength, Opcode.size, Nat.add_comm]
        simp [heq, Stretch.locate, hsize, s]
  | case4 offset done byte rest op hop cause hcause =>
      obtain rfl := Opcode.ofByte?_eq_some.1 hop
      let s : Stretch := ⟨.truncated op rest.length, op.toByte :: rest, rest, rfl, rfl,
        Opcode.length_of_operands?_eq_error hcause⟩
      exact ⟨[s], .last s, by simp [Stretch.locate, s]⟩

theorem Code.exists_partition (code : Code) :
    ∃ stretches, Stretch.Partition code.toList stretches ∧
      code.segments = Stretch.locate 0 stretches :=
  exists_partition_segmentsFrom 0 code.toList []

/-! ## Lines -/

/-- The words of a segment's text. -/
def Segment.words : Segment → List String
  | .instruction op operands => op.mnemonic :: operands.map toString
  | .undefined byte => ["ERROR:", "opcode", toString byte.toNat, "undefined"]
  | .truncated op available =>
      ["ERROR:", op.mnemonic, "needs", toString op.operandSize, "operand", "bytes,", "only",
        toString available, "left"]

/-- The text of a segment on a line of its own, behind its offset. -/
def Segment.line (s : Nat × Segment) : String :=
  Text.padZeros 4 s.1 ++ " " ++ s.2.render ++ "\n"

theorem foldl_words (start : String) (operands : List Nat) :
    operands.foldl (fun out n => out ++ " " ++ toString n) start =
      " ".intercalate (start :: operands.map toString) := by
  induction operands generalizing start with
  | nil => rfl
  | cons n rest ih =>
      rw [List.foldl_cons, ih]
      rfl

theorem Segment.render_eq (s : Segment) : s.render = " ".intercalate s.words := by
  cases s with
  | instruction op operands => exact foldl_words op.mnemonic operands
  | undefined byte =>
      apply String.toList_inj.1
      simp [render, words, DecodeError.message]
  | truncated op available =>
      apply String.toList_inj.1
      simp [render, words, DecodeError.message]

namespace Text

/-- The text has neither a blank nor a newline in it. -/
def Unbroken (text : String) : Prop :=
  ' ' ∉ text.toList ∧ '\n' ∉ text.toList

theorem unbroken_of_digits {text : String} (h : ∀ c ∈ text.toList, c.isDigit) : Unbroken text := by
  constructor
  all_goals
    intro hc
    exact absurd (h _ hc) (by decide)

theorem isDigit_of_mem_toString {n : Nat} {c : Char} (h : c ∈ (toString n).toList) : c.isDigit := by
  rw [Nat.toString_eq_repr, Nat.toList_repr] at h
  exact Nat.isDigit_of_mem_toDigits (by decide) (by decide) h

theorem unbroken_toString (n : Nat) : Unbroken (toString n) :=
  unbroken_of_digits fun _ => isDigit_of_mem_toString

theorem unbroken_padZeros (width n : Nat) : Unbroken (padZeros width n) := by
  refine unbroken_of_digits fun c hc => ?_
  rw [padZeros, String.toList_append, String.toList_ofList, List.mem_append] at hc
  rcases hc with hc | hc
  · rw [List.eq_of_mem_replicate hc]
    rfl
  · exact isDigit_of_mem_toString hc

theorem padZeros_injective (width : Nat) : Function.Injective (padZeros width) := by
  have hvalue : ∀ n, Nat.ofDigitChars 10 (padZeros width n).toList 0 = n := by
    intro n
    rw [padZeros, String.toList_append, String.toList_ofList, Nat.ofDigitChars_append,
      Nat.ofDigitChars_replicate_zero, Nat.mul_zero, Nat.toString_eq_repr, Nat.toList_repr,
      Nat.ofDigitChars_ten_toDigits]
  intro m n h
  rw [← hvalue m, h, hvalue n]

theorem linesFrom_append {body : List Char} (h : '\n' ∉ body) (line : String) (rest : List Char) :
    linesFrom line (body ++ '\n' :: rest) =
      (line ++ String.ofList body ++ "\n") :: linesFrom "" rest := by
  induction body generalizing line with
  | nil =>
      have hline : line.push '\n' = line ++ String.ofList [] ++ "\n" := by
        apply String.toList_inj.1
        simp
      rw [List.nil_append, linesFrom, if_pos rfl, hline]
  | cons c body ih =>
      obtain ⟨hc, hbody⟩ := List.ne_and_not_mem_of_not_mem_cons h
      have hline : line.push c ++ String.ofList body = line ++ String.ofList (c :: body) := by
        apply String.toList_inj.1
        simp
      rw [List.cons_append, linesFrom, if_neg hc.symm, ih hbody, hline]

/-- Lines that each end in their only newline are the lines of the text they make up. -/
theorem lines_join {ls : List String}
    (h : ∀ l ∈ ls, ∃ body, '\n' ∉ body.toList ∧ l = body ++ "\n") :
    lines (String.join ls) = ls := by
  induction ls with
  | nil => rfl
  | cons l ls ih =>
      obtain ⟨⟨body, hbody, rfl⟩, hls⟩ := List.forall_mem_cons.1 h
      have hlist : (String.join ((body ++ "\n") :: ls)).toList =
          body.toList ++ '\n' :: (String.join ls).toList := by
        simp
      rw [lines, hlist, linesFrom_append hbody, String.empty_append, String.ofList_toList]
      exact congrArg _ (ih hls)

end Text

namespace Segment

theorem unbroken_mnemonic (op : Opcode) : Text.Unbroken op.mnemonic := by
  rw [Text.Unbroken]
  cases op <;> decide

theorem unbroken_words (s : Segment) : ∀ word ∈ s.words, Text.Unbroken word := by
  cases s with
  | instruction op operands =>
      simp only [words, List.forall_mem_cons, List.forall_mem_map]
      exact ⟨unbroken_mnemonic op, fun n _ => Text.unbroken_toString n⟩
  | undefined byte =>
      simp only [words, List.forall_mem_cons]
      have hnumber := Text.unbroken_toString byte.toNat
      refine ⟨?_, ?_, hnumber, ?_, List.forall_mem_nil _⟩ <;> rw [Text.Unbroken] <;> decide
  | truncated op available =>
      simp only [words, List.forall_mem_cons]
      have hop := unbroken_mnemonic op
      have hsize := Text.unbroken_toString op.operandSize
      have hnumber := Text.unbroken_toString available
      refine ⟨?_, hop, ?_, hsize, ?_, ?_, ?_, hnumber, ?_, List.forall_mem_nil _⟩ <;>
        rw [Text.Unbroken] <;> decide

/-- The words of a line: its offset, and those of its segment. -/
def lineWords (s : Nat × Segment) : List String :=
  Text.padZeros 4 s.1 :: s.2.words

theorem unbroken_lineWords (s : Nat × Segment) : ∀ word ∈ lineWords s, Text.Unbroken word :=
  List.forall_mem_cons.2 ⟨Text.unbroken_padZeros 4 s.1, s.2.unbroken_words⟩

theorem line_eq (s : Nat × Segment) : line s = " ".intercalate (lineWords s) ++ "\n" := by
  have hne : s.2.words ≠ [] := by
    cases s.2 <;> simp [words]
  rw [lineWords, String.intercalate_cons_of_ne_nil hne, ← render_eq]
  rfl

theorem mnemonic_injective : Function.Injective Opcode.mnemonic := by
  have hinverse : ∀ op : Opcode, Opcode.ofMnemonic? op.mnemonic = some op := by
    intro op
    cases op <;> decide +kernel
  intro op op' h
  have hop := hinverse op
  rw [h, hinverse op'] at hop
  exact (Option.some.inj hop).symm

theorem mnemonic_ne (op : Opcode) : op.mnemonic ≠ "ERROR:" ∧ op.mnemonic ≠ "opcode" := by
  cases op <;> decide

/-- No two segments have the same words. -/
theorem words_injective : Function.Injective words := by
  intro s t h
  cases s with
  | instruction op operands =>
      cases t with
      | instruction op' operands' =>
          obtain ⟨hop, hoperands⟩ := List.cons.inj h
          have hnumbers : Function.Injective (toString : Nat → String) :=
            fun m n hmn => Nat.repr_injective hmn
          rw [mnemonic_injective hop, List.map_injective_iff.2 hnumbers hoperands]
      | undefined | truncated => exact absurd (List.cons.inj h).1 (mnemonic_ne op).1
  | undefined byte =>
      cases t with
      | instruction op' operands' => exact absurd (List.cons.inj h).1.symm (mnemonic_ne op').1
      | undefined byte' =>
          simp only [words, List.cons.injEq, true_and, and_true] at h
          rw [UInt8.toNat_inj.1 (Nat.repr_injective h)]
      | truncated op' available' =>
          simp only [words, List.cons.injEq, true_and] at h
          exact absurd h.1.symm (mnemonic_ne op').2
  | truncated op available =>
      cases t with
      | instruction op' operands' => exact absurd (List.cons.inj h).1.symm (mnemonic_ne op').1
      | undefined byte' =>
          simp only [words, List.cons.injEq, true_and] at h
          exact absurd h.1 (mnemonic_ne op).2
      | truncated op' available' =>
          simp only [words, List.cons.injEq, true_and, and_true] at h
          rw [mnemonic_injective h.1, Nat.repr_injective h.2.2]

end Segment

theorem Text.not_mem_intercalate {words : List String} (h : ∀ word ∈ words, Unbroken word) :
    '\n' ∉ (" ".intercalate words).toList := by
  induction words with
  | nil => simp
  | cons word words ih =>
      obtain ⟨hword, hwords⟩ := List.forall_mem_cons.1 h
      cases words with
      | nil => simpa using hword.2
      | cons next rest =>
          rw [String.intercalate_cons_cons]
          simp only [String.toList_append, List.mem_append, not_or]
          exact ⟨⟨hword.2, by decide⟩, ih hwords⟩

theorem Text.intercalate_inj {words words' : List String} (h : ∀ word ∈ words, Unbroken word)
    (h' : ∀ word ∈ words', Unbroken word) (hne : words ≠ []) (hne' : words' ≠ [])
    (heq : " ".intercalate words = " ".intercalate words') : words = words' := by
  have hsplit : ∀ ws : List String, (∀ word ∈ ws, Unbroken word) → ws ≠ [] →
      (" ".intercalate ws).toList.splitOn ' ' = ws.map String.toList := by
    intro ws hws hne
    rw [String.toList_intercalate]
    refine List.splitOn_intercalate ' ' ?_ (by simpa using hne)
    simp only [List.forall_mem_map]
    exact fun word hword => (hws word hword).1
  have hlists := hsplit words h hne
  rw [heq, hsplit words' h' hne'] at hlists
  have hinj : Function.Injective String.toList := fun _ _ heq => String.toList_inj.1 heq
  exact (List.map_injective_iff.2 hinj hlists).symm

/-- A line tells its offset and its segment. -/
theorem Segment.line_injective : Function.Injective line := by
  intro s t h
  rw [line_eq, line_eq] at h
  have htext : " ".intercalate (lineWords s) = " ".intercalate (lineWords t) :=
    (String.append_left_inj _).1 h
  have hwords : lineWords s = lineWords t :=
    Text.intercalate_inj (unbroken_lineWords s) (unbroken_lineWords t) (by simp [lineWords])
      (by simp [lineWords]) htext
  obtain ⟨hoffset, hsegment⟩ := List.cons.inj hwords
  exact Prod.ext (Text.padZeros_injective 4 hoffset) (words_injective hsegment)

/-! ## Listings -/

namespace Code

theorem listing_eq (code : Code) : code.listing = String.join (code.segments.map Segment.line) := by
  rw [listing, String.join, List.foldl_map]
  congr 1
  funext out s
  simp only [Segment.line, String.append_assoc]

/-- The listing has a line for each segment. -/
theorem lines_listing (code : Code) :
    Text.lines code.listing = code.segments.map Segment.line := by
  rw [listing_eq, Text.lines_join]
  simp only [List.forall_mem_map]
  intro s _
  exact ⟨_, Text.not_mem_intercalate (Segment.unbroken_lineWords s), Segment.line_eq s⟩

/-- What the listings say of two streams is the same only if their segments are. -/
theorem segments_of_listing {a b : Code} (h : a.listing = b.listing) : a.segments = b.segments := by
  have hlines := a.lines_listing
  rw [h, b.lines_listing] at hlines
  exact (List.map_injective_iff.2 Segment.line_injective hlines).symm

/-- Whether no byte is missing from the last segment. -/
def isWhole (code : Code) : Bool :=
  code.segments.getLast?.all fun s => !s.2.isTruncated

theorem toList_of_isWhole {code : Code} (h : code.isWhole = true) :
    code.toList = code.segments.flatMap (·.2.spelling) := by
  obtain ⟨stretches, hpart, hsegments⟩ := code.exists_partition
  have hwhole : ∀ s ∈ stretches, s.segment.isTruncated = false := by
    rcases List.eq_nil_or_concat stretches with rfl | ⟨init, last, rfl⟩
    · simp
    · have hlast : code.segments.getLast?.map (·.2) = some last.segment := by
        rw [← List.getLast?_map, hsegments, Stretch.map_locate]
        simp
      obtain ⟨s, hs, heq⟩ := Option.map_eq_some_iff.1 hlast
      rw [isWhole, hs, Option.all_some, heq, Bool.not_eq_true'] at h
      have hended := hpart.ended
      rw [List.concat_eq_append, List.dropLast_concat] at hended
      simp only [List.concat_eq_append, List.mem_append, List.mem_singleton]
      rintro s (hs | rfl)
      · exact hended s hs
      · exact h
  calc code.toList
      = stretches.flatMap (·.bytes) := hpart.bytes_eq.symm
    _ = stretches.flatMap (·.segment.spelling) :=
        List.flatMap_congr fun s hs => s.covers.eq_spelling (hwhole s hs)
    _ = (stretches.map (·.segment)).flatMap Segment.spelling := (List.flatMap_map ..).symm
    _ = code.segments.flatMap (·.2.spelling) := by
        rw [← Stretch.map_locate 0, ← hsegments, List.flatMap_map]

/-- The lines of a listing are about stretches of bytes that cover the stream one behind the
other, and each line starts with the offset of its stretch. Different streams have different
listings, unless bytes are missing from the end of one. -/
theorem listing_covers_and_tells_apart :
    (∀ code : Code, ∃ stretches, Stretch.Partition code.toList stretches ∧
      code.segments = Stretch.locate 0 stretches ∧
      Text.lines code.listing = (Stretch.locate 0 stretches).map Segment.line) ∧
    ∀ a b : Code, a.isWhole = true → b.isWhole = true → a ≠ b → a.listing ≠ b.listing := by
  constructor
  · intro code
    obtain ⟨stretches, hpart, hsegments⟩ := code.exists_partition
    exact ⟨stretches, hpart, hsegments, by rw [lines_listing, hsegments]⟩
  · intro a b ha hb hne hlisting
    apply hne
    apply Array.toList_inj.1
    rw [toList_of_isWhole ha, toList_of_isWhole hb, segments_of_listing hlisting]

theorem listing_covers_and_tells_apart_garbled :
    let a : Code := #[250, 0, 0, 27, 27, 0, 0, 1, 5]
    let b : Code := #[250, 0, 0, 27, 27, 0, 0, 2, 5]
    a.listing = "0000 ERROR: opcode 250 undefined\n0001 OpConstant 27\n" ++
      "0004 OpClosure 0 1\n0008 OpPop\n" ∧
    a.isWhole = true ∧ b.isWhole = true ∧ a ≠ b ∧ a.listing ≠ b.listing := by
  intro a b
  have ha : a.isWhole = true := by decide +kernel
  have hb : b.isWhole = true := by decide +kernel
  have hne : a ≠ b := by decide
  exact ⟨by decide +kernel, ha, hb, hne, listing_covers_and_tells_apart.2 a b ha hb hne⟩

end Code

end Monkey
