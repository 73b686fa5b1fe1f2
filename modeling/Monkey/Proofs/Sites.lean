import Monkey.Proofs.Verifier

/-!
# Where a body binds and reads names

The sites of a resolved body are its instructions in order, with those marked that read a symbol or
store under one. Where a `let` begins is a site too, though it has no code: from there on its name
stands for the new symbol. What a function literal inside the body does with names has no part in
it, as that is done by other code.

Sites have sizes, so the sites in front of one say at which offset it stands. `Spelt` connects
them with the stream: `Laid.spelt` says that the code of a part is spelt by its sites, and
`Spelt.exists_stores` that an instruction of the stream which stores something is one of the marked
ones.
-/

namespace Monkey

/-- Whether an instruction stores to a global or to a slot. -/
def Instruction.sets : Instruction → Bool
  | .setGlobal _ | .setLocal _ => true
  | _ => false

namespace Resolved

/-- A place in the code of a body. -/
inductive Site where
  /-- A `let` begins. Its name is known from here on. -/
  | opens (s : Symbol)
  /-- The `let` has its value. -/
  | stores (s : Symbol)
  /-- An identifier is evaluated. -/
  | reads (s : Symbol)
  /-- Any other instruction. -/
  | works (op : Opcode)
  deriving DecidableEq

/-- The number of bytes at a site. -/
def Site.size : Site → Nat
  | .opens _ => 0
  | .stores s => s.save.opcode.size
  | .reads s => s.load.opcode.size
  | .works op => op.size

/-- The symbol of a `let` that begins. -/
def Site.opened? : Site → Option Symbol
  | .opens s => some s
  | _ => none

/-- The symbol of a `let` that has its value. -/
def Site.stored? : Site → Option Symbol
  | .stores s => some s
  | _ => none

/-- The number of bytes at some sites. -/
def width : List Site → Nat
  | [] => 0
  | site :: rest => site.size + width rest

/-- The symbols of the `let`s that begin at some sites, in order. -/
def opened (sites : List Site) : List Symbol :=
  sites.filterMap Site.opened?

/-- The symbol under which the instruction at an offset stores, if it is that of a `let`. -/
def storedAt : List Site → Nat → Option Symbol
  | [], _ => none
  | site :: rest, offset =>
      if site.size ≤ offset then storedAt rest (offset - site.size)
      else if offset = 0 then site.stored? else none

/-! ## The sites of a tree -/

/-- What stands behind the expression that ends a block. -/
def Tail.closing : Tail → List Site
  | .branch => []
  | .body => [.works .returnValue]

mutual

/-- The sites of an expression. -/
def Expr.sites : Expr → List Site
  | .symbol s => [.reads s]
  | .int _ | .str _ => [.works .constant]
  | .bool value => [.works (if value then .pushTrue else .pushFalse)]
  | .unary op operand => operand.sites ++ [.works op.instruction.opcode]
  | .binary op left right => left.sites ++ right.sites ++ [.works op.instruction.opcode]
  | .less left right => right.sites ++ left.sites ++ [.works .greater]
  | .cond condition consequence alternative =>
      condition.sites ++ .works .jumpUnless :: blockSites .branch consequence ++
        .works .jump :: blockSites .branch alternative
  | .function _ _ captures _ =>
      captures.map (fun s => .works s.load.opcode) ++ [.works .closure]
  | .call callee arguments => callee.sites ++ exprsSites arguments ++ [.works .call]
  | .index container position => container.sites ++ position.sites ++ [.works .index]
  | .array elements => exprsSites elements ++ [.works .array]
  | .hash pairs => pairsSites pairs ++ [.works .hash]

/-- The sites of a statement. -/
def Stmt.sites : Stmt → List Site
  | .bind s value => .opens s :: value.sites ++ [.stores s]
  | .ret value => value.sites ++ [.works .returnValue]
  | .expr value => value.sites ++ [.works .pop]

/-- The sites of the statement that ends a block. -/
def Stmt.lastSites (tail : Tail) : Stmt → List Site
  | .bind s value => .opens s :: value.sites ++ [.stores s] ++ [.works tail.ofNothing.opcode]
  | .ret value => value.sites ++ [.works .returnValue]
  | .expr value => value.sites ++ tail.closing

/-- The sites of a block. -/
def blockSites (tail : Tail) : List Stmt → List Site
  | [] => [.works tail.ofNothing.opcode]
  | [last] => last.lastSites tail
  | first :: next :: rest => first.sites ++ blockSites tail (next :: rest)

def exprsSites : List Expr → List Site
  | [] => []
  | first :: rest => first.sites ++ exprsSites rest

def pairsSites : List (Expr × Expr) → List Site
  | [] => []
  | first :: rest => pairSites first ++ pairsSites rest

def pairSites : Expr × Expr → List Site
  | (key, value) => key.sites ++ value.sites

end

/-- The sites of the statements of a program. -/
def stmtsSites : List Stmt → List Site
  | [] => []
  | first :: rest => first.sites ++ stmtsSites rest

attribute [local simp] Expr.sites Stmt.sites Stmt.lastSites blockSites exprsSites pairsSites
  pairSites stmtsSites

/-- The sites of a part. -/
def Part.sites : Part → List Site
  | .expr e => e.sites
  | .stmt s => s.sites
  | .exprs es => exprsSites es
  | .pairs ps => pairsSites ps
  | .loads symbols => symbols.map fun s => .works s.load.opcode
  | .stmts ss => stmtsSites ss
  | .block tail ss => blockSites tail ss

/-! ## Lists of sites -/

section

variable {before before' after after' sites : List Site} {site site' : Site}

@[simp] theorem width_append (before after : List Site) :
    width (before ++ after) = width before + width after := by
  induction before with
  | nil => simp [width]
  | cons site rest ih => simp only [List.cons_append, width, ih, Nat.add_assoc]

@[simp] theorem opened_append (before after : List Site) :
    opened (before ++ after) = opened before ++ opened after :=
  List.filterMap_append

@[simp] theorem opened_opens (s : Symbol) (rest : List Site) :
    opened (.opens s :: rest) = s :: opened rest :=
  rfl

@[simp] theorem opened_stores (s : Symbol) (rest : List Site) :
    opened (.stores s :: rest) = opened rest :=
  rfl

@[simp] theorem opened_reads (s : Symbol) (rest : List Site) :
    opened (.reads s :: rest) = opened rest :=
  rfl

@[simp] theorem opened_works (op : Opcode) (rest : List Site) :
    opened (.works op :: rest) = opened rest :=
  rfl

theorem mem_opened {s : Symbol} : s ∈ opened sites ↔ .opens s ∈ sites := by
  rw [opened, List.mem_filterMap]
  constructor
  · rintro ⟨site, hsite, hs⟩
    cases site <;> cases hs
    exact hsite
  · exact fun h => ⟨_, h, rfl⟩

/-- An element of two lists in a row stands in the first or in the second. -/
theorem split_append {α : Type} {xs ys before after : List α} {a : α}
    (h : xs ++ ys = before ++ a :: after) :
    (∃ rest, xs = before ++ a :: rest ∧ after = rest ++ ys) ∨
      ∃ rest, before = xs ++ rest ∧ ys = rest ++ a :: after := by
  rcases List.append_eq_append_iff.1 h with ⟨rest, hbefore, hys⟩ | ⟨rest, hxs, hafter⟩
  · exact .inr ⟨rest, hbefore, hys⟩
  · cases rest with
    | nil =>
        refine .inr ⟨[], ?_, hafter.symm⟩
        rw [hxs, List.append_nil, List.append_nil]
    | cons b rest =>
        obtain ⟨rfl, hrest⟩ := List.cons.inj hafter
        exact .inl ⟨rest, hxs, hrest⟩

/-- The offset of the instruction of a `let` leads to its symbol. -/
theorem storedAt_width (before after : List Site) (s : Symbol) :
    storedAt (before ++ .stores s :: after) (width before) = some s := by
  induction before with
  | nil =>
      have hpos : 0 < (Site.stores s).size := s.save.size_pos
      rw [List.nil_append, width, storedAt, if_neg (Nat.not_le.2 hpos), if_pos rfl]
      rfl
  | cons site rest ih =>
      rw [List.cons_append, width, storedAt, if_pos (Nat.le_add_right _ _),
        Nat.add_sub_cancel_left, ih]

theorem exists_of_storedAt {offset : Nat} {s : Symbol} (h : storedAt sites offset = some s) :
    ∃ before after, sites = before ++ .stores s :: after ∧ offset = width before := by
  induction sites generalizing offset with
  | nil => cases h
  | cons site rest ih =>
      rw [storedAt] at h
      split at h
      · next hle =>
          obtain ⟨before, after, rfl, hwidth⟩ := ih h
          refine ⟨site :: before, after, rfl, ?_⟩
          rw [width]
          omega
      · split at h
        · next hzero =>
            cases site <;> cases h
            exact ⟨[], rest, rfl, hzero⟩
        · cases h

end

/-! ## Sites and the stream -/

/-- The stream from `lo` up to `hi` has these sites. -/
inductive Spelt (code : Code) : Nat → List Site → Nat → Prop where
  | nil {lo} : Spelt code lo [] lo
  | opens {lo hi s rest} : Spelt code lo rest hi → Spelt code lo (.opens s :: rest) hi
  | stores {lo m hi rest} {s : Symbol} : code.Holds lo s.save m → Spelt code m rest hi →
      Spelt code lo (.stores s :: rest) hi
  | reads {lo m hi rest} {s : Symbol} : code.Holds lo s.load m → Spelt code m rest hi →
      Spelt code lo (.reads s :: rest) hi
  | works {lo m hi rest} {i : Instruction} : code.Holds lo i m → i.sets = false →
      Spelt code m rest hi → Spelt code lo (.works i.opcode :: rest) hi

namespace Spelt

variable {code : Code} {lo m hi : Nat} {before after sites sites' : List Site} {s : Symbol}

theorem append (h : Spelt code lo sites m) (h' : Spelt code m sites' hi) :
    Spelt code lo (sites ++ sites') hi := by
  induction h with
  | nil => exact h'
  | opens _ ih => exact .opens (ih h')
  | stores hi _ ih => exact .stores hi (ih h')
  | reads hi _ ih => exact .reads hi (ih h')
  | works hi hsets _ ih => exact .works hi hsets (ih h')

/-- An instruction behind some sites. -/
theorem andWorks {i : Instruction} (h : Spelt code lo sites m) (hat : code.Holds m i hi)
    (hsets : i.sets = false) : Spelt code lo (sites ++ [.works i.opcode]) hi :=
  h.append (.works hat hsets .nil)

theorem exists_split (h : Spelt code lo (before ++ after) hi) :
    ∃ m, m = lo + width before ∧ Spelt code m after hi := by
  induction before generalizing lo with
  | nil => exact ⟨lo, rfl, h⟩
  | cons site rest ih =>
      rw [List.cons_append] at h
      cases h with
      | opens h =>
          obtain ⟨m, rfl, hm⟩ := ih h
          exact ⟨_, by simp [width, Site.size], hm⟩
      | stores hi h | reads hi h | works hi _ h =>
          obtain ⟨m, rfl, hm⟩ := ih h
          refine ⟨_, ?_, hm⟩
          rw [hi.bounds.1, width, ← Nat.add_assoc]
          rfl

/-- Where an identifier is evaluated, its symbol is loaded. -/
theorem holds_load (h : Spelt code 0 (before ++ .reads s :: after) hi) :
    ∃ next, code.Holds (width before) s.load next := by
  obtain ⟨m, rfl, h⟩ := h.exists_split
  rw [Nat.zero_add] at h
  cases h with
  | reads hi => exact ⟨_, hi⟩

theorem holds_save (h : Spelt code 0 (before ++ .stores s :: after) hi) :
    ∃ next, code.Holds (width before) s.save next := by
  obtain ⟨m, rfl, h⟩ := h.exists_split
  rw [Nat.zero_add] at h
  cases h with
  | stores hi => exact ⟨_, hi⟩

theorem le (h : Spelt code lo sites hi) : lo ≤ hi := by
  induction h with
  | nil => exact Nat.le_refl _
  | opens _ ih => exact ih
  | stores hat _ ih | reads hat _ ih | works hat _ _ ih => exact hat.lt.le.trans ih

theorem exists_tiles {is : List (Nat × Instruction)} {i : Instruction}
    (htiles : code.Tiles lo is hi) (hat : code.Holds lo i m) (hle : m ≤ hi) :
    ∃ rest, is = (lo, i) :: rest ∧ code.Tiles m rest hi := by
  cases htiles with
  | nil => exact absurd hle (Nat.not_le.2 hat.lt)
  | cons hat' hrest =>
      obtain ⟨rfl, rfl⟩ := hat.unique hat'
      exact ⟨_, rfl, hrest⟩

theorem sets_load (s : Symbol) : s.load.sets = false := by
  rw [Symbol.load]
  cases s.storage <;> rfl

/-- Only the instructions of `let`s store anything. -/
theorem exists_stores {is : List (Nat × Instruction)} {ip : Nat} {i : Instruction}
    (h : Spelt code lo sites hi) (htiles : code.Tiles lo is hi) (hmem : (ip, i) ∈ is)
    (hsets : i.sets = true) :
    ∃ before s after, sites = before ++ .stores s :: after ∧ ip = lo + width before := by
  have hlater : ∀ {lo m : Nat} {site : Site} {rest : List Site}, m = lo + site.size →
      (∃ before s after, rest = before ++ .stores s :: after ∧ ip = m + width before) →
      ∃ before s after, site :: rest = before ++ .stores s :: after ∧ ip = lo + width before := by
    rintro lo m site rest rfl ⟨before, s, after, rfl, rfl⟩
    exact ⟨site :: before, s, after, rfl, by rw [width, Nat.add_assoc]⟩
  induction h generalizing is with
  | nil =>
      cases htiles with
      | nil => cases hmem
      | cons hat hrest => exact absurd hrest.le (Nat.not_le.2 hat.lt)
  | opens _ ih => exact hlater rfl (ih htiles hmem)
  | @stores lo m hi rest s hat hrest ih =>
      obtain ⟨is, rfl, htiles'⟩ := exists_tiles htiles hat hrest.le
      rcases List.mem_cons.1 hmem with heq | hmem
      · cases heq
        exact ⟨[], s, rest, rfl, rfl⟩
      · exact hlater hat.bounds.1 (ih htiles' hmem)
  | @reads lo m hi rest s hat hrest ih =>
      obtain ⟨is, rfl, htiles'⟩ := exists_tiles htiles hat hrest.le
      rcases List.mem_cons.1 hmem with heq | hmem
      · cases heq
        rw [sets_load] at hsets
        cases hsets
      · exact hlater hat.bounds.1 (ih htiles' hmem)
  | works hat hfree hrest ih =>
      obtain ⟨is, rfl, htiles'⟩ := exists_tiles htiles hat hrest.le
      rcases List.mem_cons.1 hmem with heq | hmem
      · cases heq
        rw [hfree] at hsets
        cases hsets
      · exact hlater hat.bounds.1 (ih htiles' hmem)

end Spelt

/-- The code of a part is spelt by its sites. -/
theorem Laid.spelt {K : Array Value} {room : Room} {code : Code} {part : Part} {lo hi : Nat}
    (h : Laid K room code part lo hi) : Spelt code lo part.sites hi := by
  induction h with
  | symbol _ hat => exact .reads hat .nil
  | int hat _ | str hat _ => exact .works hat rfl .nil
  | @bool _ _ _ _ value hat => cases value <;> exact .works hat rfl .nil
  | @unary _ _ _ _ _ _ op _ hat ih => exact ih.andWorks hat (by cases op <;> rfl)
  | @binary _ _ _ _ _ _ _ _ op _ _ hat ih₁ ih₂ =>
      refine (ih₁.append ih₂).andWorks hat ?_
      rcases op with op | wanted
      · cases op <;> rfl
      · cases wanted <;> rfl
  | less _ _ hat ih₁ ih₂ | call _ _ hat ih₁ ih₂ | index _ _ hat ih₁ ih₂ =>
      exact (ih₁.append ih₂).andWorks hat rfl
  | cond _ htest _ hexit _ ihc iha ihb =>
      exact (ihc.append (.works htest rfl iha)).append (.works hexit rfl ihb)
  | function _ hat _ _ _ _ ih _ => exact ih.andWorks hat rfl
  | array _ hat ih | hash _ hat ih => exact ih.andWorks hat rfl
  | exprsNil | pairsNil | loadsNil | stmtsNil => exact .nil
  | exprsCons _ _ ih₁ ih₂ | stmtsCons _ _ ih₁ ih₂ => exact ih₁.append ih₂
  | pairsCons _ _ _ ih₁ ih₂ ih₃ => exact (ih₁.append ih₂).append ih₃
  | @loadsCons _ _ _ _ _ _ s _ hat _ ih => exact .works hat (Spelt.sets_load s) ih
  | bind _ _ hat ih => exact .opens (ih.append (.stores hat .nil))
  | ret _ hat ih | value _ hat ih => exact ih.andWorks hat rfl
  | @blockNil _ _ _ _ tail hat => exact .works hat (by cases tail <;> rfl) .nil
  | blockBind _ _ ih₁ ih₂ => exact ih₁.append ih₂
  | blockRet _ ih => exact ih
  | @blockValue _ _ _ _ _ _ tail _ hc ih =>
      cases tail with
      | branch =>
          rw [show _ = _ from hc] at ih
          exact ih.append .nil
      | body => exact ih.andWorks hc rfl
  | blockCons _ _ ih₁ ih₂ => exact ih₁.append ih₂

end Resolved

end Monkey
