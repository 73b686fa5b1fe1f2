import Monkey.Proofs.Edits

/-!
# The streams of a compilation at every time

A compilation edits one stream at a time, that of the innermost body, and a stream is given up when
its body ends. Of all the states that the streams go through only the last one is left in the
result. So that something can be said about every time in between, a compilation keeps a log of what
it does, and a refusal hands out the log so far. `Desk.replay` brings the streams back as they were
after some of the actions.

The log of a body starts anew, so all statements are about a state and what was done before its body
was opened. `At` is what a compilation keeps: the log is truthful and leads to the streams that are
there, all of them are sound, those around the current one are untouched, and the same jumps wait
for a target. After an expression the stream does not end in a pop either (`Settled`). For each part
of a program one lemma proves it, on both ways out.
-/

namespace Monkey

open Codegen (Action)

/-! ## Replaying a log -/

/-- The streams of the bodies that are being compiled. -/
structure Desk where
  /-- The stream of the innermost body. -/
  sheet : Sheet := {}
  /-- The streams of the bodies around it, from the inside out. -/
  around : List Sheet := []

namespace Desk

/-- All open streams. -/
def sheets (d : Desk) : List Sheet :=
  d.sheet :: d.around

/-- All open streams, without their jumps. -/
def buffers (d : Desk) : List Buffer :=
  d.sheets.map Sheet.buffer

def act (d : Desk) : Action → Desk
  | .edit change => { d with sheet := d.sheet.edit change }
  | .openBody => ⟨{}, d.sheets⟩
  | .closeBody => ⟨d.around.headD {}, d.around.tail⟩

/-- The streams after some actions. -/
def replay (log : List Action) : Desk :=
  log.foldl act {}

/-- After each action all open streams say the truth about their ends, and only pops that no jump
goes past are taken back. -/
def Truthful (log : List Action) : Prop :=
  ∀ past action, past ++ [action] <+: log →
    (∀ s ∈ (replay (past ++ [action])).sheets, s.buffer.Truthful) ∧
      (action = .edit .dropLast → (replay past).sheet.Retracts)

theorem replay_concat (log : List Action) (action : Action) :
    replay (log ++ [action]) = (replay log).act action :=
  List.foldl_concat ..

theorem truthful_nil : Truthful [] := by
  intro past action h
  exact absurd (List.prefix_nil.1 h) (List.append_ne_nil_of_right_ne_nil _ (List.cons_ne_nil _ _))

theorem Truthful.concat {log : List Action} {action : Action} (h : Truthful log)
    (hsheets : ∀ s ∈ ((replay log).act action).sheets, s.Sound)
    (hdrop : action = .edit .dropLast → (replay log).sheet.Retracts) :
    Truthful (log ++ [action]) := by
  intro past next hnext
  rcases List.prefix_concat_iff.1 hnext with heq | hnext
  · obtain ⟨rfl, hlast⟩ := List.append_inj' heq rfl
    cases hlast
    rw [replay_concat]
    exact ⟨fun s hs => (hsheets s hs).truthful, hdrop⟩
  · exact h past next hnext

end Desk

namespace Codegen

-- The equations of compilation, which every lemma about a constructor opens.
attribute [local simp] pushSymbols inTurn expr stmt block otherwise exprs

/-! ## What a compilation keeps -/

/-- The whole log, with what was done before the current body was opened. -/
def record (before : List Action) (g : Codegen) : List Action :=
  before ++ g.log.toList

/-- The streams that the log leads to. -/
def desk (before : List Action) (g : Codegen) : Desk :=
  .replay (g.record before)

/-- The log is truthful and leads to the current stream, with these streams around it and these
jumps of it waiting, and all streams are sound. -/
structure At (before : List Action) (around : List Sheet) (pending : List Nat) (g : Codegen) :
    Prop where
  sound : (g.desk before).sheet.Sound
  outer : ∀ s ∈ around, s.Sound
  around_eq : (g.desk before).around = around
  buffer_eq : (g.desk before).sheet.buffer = g.buffer
  pending_eq : (g.desk before).sheet.pending = pending
  log : Desk.Truthful (g.record before)

/-- The same, where the current stream does not end in a pop. -/
structure Settled (before : List Action) (around : List Sheet) (pending : List Nat) (g : Codegen) :
    Prop extends At before around pending g where
  no_pop : g.buffer.endsWith .pop = false

/-- The log of a refusal is truthful and leads to the streams that were open then. -/
structure Refused (before : List Action) (around : List Sheet) (r : Refusal) : Prop where
  log : Desk.Truthful (r.state.record before)
  streams : (r.state.desk before).buffers = r.state.buffer :: (r.around ++ around.map Sheet.buffer)

/-- An instruction that fits its operands and is neither a jump nor a pop. -/
structure Free (i : Instruction) : Prop where
  fits : i.Fits
  target : i.target?.isSome = false
  opcode : (i.opcode == .pop) = false

variable {before : List Action} {around : List Sheet} {pending : List Nat} {g : Codegen}
  {i : Instruction}

theorem record_edit (before : List Action) (g : Codegen) (change : Edit) :
    (g.edit change).record before = g.record before ++ [.edit change] := by
  rw [record, record, List.append_assoc]
  exact congrArg (before ++ ·) Array.toList_push

theorem desk_edit (before : List Action) (g : Codegen) (change : Edit) :
    (g.edit change).desk before = (g.desk before).act (.edit change) := by
  rw [desk, record_edit, Desk.replay_concat]
  rfl

theorem record_enter (before : List Action) (g : Codegen) (name : Option String)
    (parameters : List String) : (g.enter name parameters).record before = before :=
  List.append_nil before

theorem record_leave (before : List Action) (outer inner : Codegen) :
    (outer.leave inner).record before =
      inner.record (outer.record before ++ [.openBody]) ++ [.closeBody] := by
  simp [record, leave]

namespace At

/-- One more action, after which the streams are `s` and those around it. -/
theorem of_act {past : List Action} {action : Action} {s : Sheet} (hpast : Desk.Truthful past)
    (hrecord : g.record before = past ++ [action])
    (hact : (Desk.replay past).act action = ⟨s, around⟩) (hsheets : ∀ t ∈ s :: around, t.Sound)
    (hbuffer : s.buffer = g.buffer)
    (hdrop : action = .edit .dropLast → (Desk.replay past).sheet.Retracts) :
    g.At before around s.pending := by
  obtain ⟨hs, houter⟩ := List.forall_mem_cons.1 hsheets
  have hdesk : g.desk before = ⟨s, around⟩ := by
    rw [desk, hrecord, Desk.replay_concat, hact]
  have hlog : Desk.Truthful (g.record before) := hrecord ▸ hpast.concat (hact ▸ hsheets) hdrop
  exact ⟨hdesk ▸ hs, houter, by rw [hdesk], by rw [hdesk, hbuffer], by rw [hdesk], hlog⟩

/-- Neither names nor constants matter. -/
theorem of_same {g' : Codegen} (h : g.At before around pending) (hbuffer : g'.buffer = g.buffer)
    (hlog : g'.log = g.log) : g'.At before around pending := by
  have hrecord : g'.record before = g.record before := by rw [record, record, hlog]
  have hdesk : g'.desk before = g.desk before := congrArg Desk.replay hrecord
  refine ⟨hdesk ▸ h.sound, h.outer, hdesk ▸ h.around_eq, ?_, hdesk ▸ h.pending_eq, hrecord ▸ h.log⟩
  rw [hdesk, hbuffer]
  exact h.buffer_eq

theorem refused (h : g.At before around pending) (e : CompileError) :
    Refused before around { error := e, state := g } := by
  refine ⟨h.log, ?_⟩
  rw [Desk.buffers, Desk.sheets, List.map_cons, h.buffer_eq, h.around_eq]
  rfl

theorem edit (h : g.At before around pending) {change : Edit}
    (hsound : ((g.desk before).sheet.edit change).Sound)
    (hdrop : change = .dropLast → (g.desk before).sheet.Retracts) :
    (g.edit change).At before around ((g.desk before).sheet.edit change).pending := by
  refine of_act h.log (record_edit before g change) ?_ (List.forall_mem_cons.2 ⟨hsound, h.outer⟩)
    ?_ fun heq => hdrop (Action.edit.inj heq)
  · rw [← h.around_eq]
    rfl
  · rw [Sheet.buffer_edit, h.buffer_eq]
    rfl

theorem emit_settled (h : g.At before around pending) (hfits : i.Fits)
    (hpop : (i.opcode == .pop) = false) :
    (g.emit i).Settled before around
      (if i.target?.isSome then g.buffer.offset :: pending else pending) := by
  have hsound : ((g.desk before).sheet.edit (.emit i)).Sound := by
    refine h.sound.emit hfits ?_
    rintro rfl
    cases hpop
  have hedit := h.edit hsound fun heq => (by cases heq)
  rw [← h.buffer_eq, ← h.pending_eq]
  exact ⟨hedit, hpop⟩

theorem emit (h : g.At before around pending) (hi : Free i) :
    (g.emit i).Settled before around pending := by
  have hemit := h.emit_settled hi.fits hi.opcode
  rw [hi.target] at hemit
  exact hemit

theorem emit_jump (h : g.At before around pending) (hfits : i.Fits)
    (hjump : i.target?.isSome = true) :
    (g.emit i).Settled before around (g.buffer.offset :: pending) := by
  have hpop : (i.opcode == .pop) = false := by
    cases i <;> first | rfl | cases hjump
  have hemit := h.emit_settled hfits hpop
  rw [hjump] at hemit
  exact hemit

/-- A branch ends without a pop, whatever it ended in. -/
theorem closeBranch (h : g.At before around pending) :
    g.closeBranch.Settled before around pending := by
  rw [Codegen.closeBranch]
  split
  · next hpop =>
      rw [← h.buffer_eq] at hpop
      obtain ⟨hsound, hno, hretracts⟩ := h.sound.dropLast hpop
      have hedit := h.edit hsound fun _ => hretracts
      refine ⟨h.pending_eq ▸ hedit, ?_⟩
      rw [← hedit.buffer_eq, desk_edit]
      exact hno
  · next hpop =>
      split
      · exact ⟨h, Bool.eq_false_iff.2 hpop⟩
      · exact h.emit ⟨fits_plain rfl rfl, rfl, rfl⟩

theorem closeBody (h : g.At before around pending) : g.closeBody.At before around pending := by
  have hreturn :
      (if g.buffer.endsWith .pop then g.edit .returnLast else g).At before around pending := by
    split
    · next hpop =>
        rw [← h.buffer_eq] at hpop
        have hedit := h.edit (h.sound.returnLast hpop) fun heq => (by cases heq)
        exact h.pending_eq ▸ hedit
    · exact h
  rw [Codegen.closeBody]
  generalize (if g.buffer.endsWith .pop then g.edit .returnLast else g) = g' at hreturn ⊢
  split
  · exact hreturn
  · exact (hreturn.emit ⟨fits_plain rfl rfl, rfl, rfl⟩).toAt

theorem enter (h : g.At before around pending) (name : Option String) (parameters : List String) :
    (g.enter name parameters).At (g.record before ++ [.openBody])
      ((g.desk before).sheet :: around) [] := by
  have hempty : Sheet.Sound {} := ⟨[], .empty⟩
  have hsheets : ∀ t ∈ {} :: (g.desk before).sheet :: around, t.Sound :=
    List.forall_mem_cons.2 ⟨hempty, List.forall_mem_cons.2 ⟨h.sound, h.outer⟩⟩
  refine of_act h.log (record_enter _ g name parameters) ?_ hsheets rfl fun heq => (by cases heq)
  rw [← h.around_eq]
  rfl

/-- The end of a body brings back the stream around it. -/
theorem leave {outer : Codegen} {s : Sheet} (hbuffer : s.buffer = outer.buffer)
    (h : g.At (outer.record before ++ [.openBody]) (s :: around) pending) :
    (outer.leave g).At before around s.pending := by
  have hact : (g.desk (outer.record before ++ [.openBody])).act .closeBody = ⟨s, around⟩ := by
    rw [Desk.act, h.around_eq]
    rfl
  exact of_act h.log (record_leave before outer g) hact h.outer hbuffer fun heq => (by cases heq)

end At

/-- A statement may end in a pop, since its expression does not. -/
theorem Settled.pop (h : g.Settled before around pending) :
    (g.emit .pop).At before around pending := by
  have hpop : (g.desk before).sheet.buffer.endsWith .pop = false := h.buffer_eq ▸ h.no_pop
  have hsound := h.sound.emit (i := .pop) (fits_plain rfl rfl) fun _ => hpop
  exact h.pending_eq ▸ h.toAt.edit hsound fun heq => (by cases heq)

/-! ## Both ways out -/

/-- The outcome is settled, or a refusal. -/
abbrev EndsSettled (before : List Action) (around : List Sheet) (pending : List Nat)
    (x : Result) : Prop :=
  Ends (Settled before around pending) (Refused before around) x

/-- The same, where the stream may end in a pop. -/
abbrev EndsAt (before : List Action) (around : List Sheet) (pending : List Nat) (x : Result) :
    Prop :=
  Ends (At before around pending) (Refused before around) x

/-- A refusal within a body is one around it, with one more open stream. -/
theorem Ends.within {P : Codegen → Prop} {s : Sheet} {x : Result} (hbuffer : s.buffer = g.buffer)
    (h : Ends P (Refused (g.record before ++ [.openBody]) (s :: around)) x) :
    Ends P (Refused before around) (g.within x) := by
  cases x with
  | ok inner => exact h
  | error r =>
      obtain ⟨hlog, hstreams⟩ := h
      have hrecord : record before
          { r.state with log := g.log.push .openBody ++ r.state.log } =
            r.state.record (g.record before ++ [.openBody]) := by
        simp [record]
      refine ⟨hrecord ▸ hlog, ?_⟩
      rw [desk] at hstreams ⊢
      rw [← hrecord, List.map_cons, hbuffer, List.append_cons] at hstreams
      exact hstreams

namespace At

/-- An instruction that counts something of the program. -/
theorem count (h : g.At before around pending) (what : Resource) (n : Nat) (i : Nat → Instruction)
    (hi : n ≤ what.limit → Free (i n)) :
    EndsSettled before around pending (g.operand what n >>= fun k => .ok (g.emit (i k))) :=
  .operand h.refused what n fun hle => h.emit (hi hle)

/-- An instruction that has a new constant as its operand. -/
theorem emitConstant (h : g.At before around pending) (value : Value) (i : Nat → Instruction)
    (hi : ∀ index ≤ 65535, Free (i index)) :
    EndsSettled before around pending
      (g.addConstant value >>= fun a => .ok (a.2.emit (i a.1))) := by
  have hpush : { g with constants := g.constants.push value }.At before around pending :=
    h.of_same rfl rfl
  rw [Codegen.addConstant, bind_assoc]
  exact .operand h.refused _ _ fun hle => hpush.emit (hi _ hle)

theorem pushSymbol (h : g.At before around pending) (s : Symbol) :
    EndsSettled before around pending (g.pushSymbol s) := by
  rw [Codegen.pushSymbol]
  cases s.storage with
  | self => exact h.emit ⟨fits_plain rfl rfl, rfl, rfl⟩
  | global => exact h.count _ _ _ fun hle => ⟨fits_wide rfl rfl hle, rfl, rfl⟩
  | slot | builtin | captured =>
      exact h.count _ _ _ fun hle => ⟨fits_narrow rfl rfl hle, rfl, rfl⟩

theorem pushSymbols (h : g.At before around pending) (symbols : List Symbol) :
    EndsAt before around pending (g.pushSymbols symbols) := by
  induction symbols generalizing g with
  | nil => exact h
  | cons s rest ih => exact (h.pushSymbol s).bind fun h => ih h.toAt

theorem pushName (h : g.At before around pending) (name : String) :
    EndsSettled before around pending (g.pushName name) := by
  rw [Codegen.pushName]
  cases g.symbols.resolve name with
  | none => exact h.refused _
  | some found =>
      have hfound : { g with symbols := found.2 }.At before around pending := h.of_same rfl rfl
      exact hfound.pushSymbol found.1

theorem store (h : g.At before around pending) (s : Symbol) :
    EndsSettled before around pending (g.store s) := by
  rw [Codegen.store]
  cases s.storage with
  | global => exact h.count _ _ _ fun hle => ⟨fits_wide rfl rfl hle, rfl, rfl⟩
  | _ => exact h.count _ _ _ fun hle => ⟨fits_narrow rfl rfl hle, rfl, rfl⟩

theorem applyOperator (h : g.At before around pending) (op : String) {i : Option Instruction}
    (hi : ∀ j, i = some j → Free j) :
    EndsSettled before around pending (g.applyOperator op i) := by
  cases i with
  | none => exact h.refused _
  | some i => exact h.emit (hi i rfl)

/-- The body was opened where the state was `outer`. -/
theorem makeClosure {outer : Codegen} {s : Sheet} (hbuffer : s.buffer = outer.buffer)
    (h : g.At (outer.record before ++ [.openBody]) (s :: around) pending) (parameters : Nat) :
    EndsSettled before around s.pending (g.makeClosure outer parameters) := by
  have hleave := h.closeBody.leave hbuffer
  rw [Codegen.makeClosure]
  refine .operand hleave.refused _ _ fun hcaptured => (hleave.pushSymbols _).bind fun h => ?_
  refine h.emitConstant _ (.closure · _) fun index hle => ⟨?_, rfl, rfl⟩
  exact .cons (Nat.lt_succ_of_le hle) (.cons (Nat.lt_succ_of_le hcaptured) .nil)

end At

theorem Settled.landHere (h : g.Settled before around pending) {jump : Nat}
    (hjump : jump ∈ pending) :
    EndsSettled before around (pending.erase jump) (g.landHere jump) := by
  have hmem : jump ∈ (g.desk before).sheet.pending := h.pending_eq.symm ▸ hjump
  have hpop : (g.desk before).sheet.buffer.endsWith .pop = false := h.buffer_eq ▸ h.no_pop
  rw [Codegen.landHere]
  refine .operand h.refused .codeBytes g.buffer.offset fun hle => ?_
  rw [← h.buffer_eq] at hle
  have hedit := h.toAt.edit (h.sound.patch hmem hle hpop) fun heq => (by cases heq)
  have hlast : (g.edit (.patch jump g.buffer.offset)).buffer.last = g.buffer.last := by
    show (g.buffer.patch jump g.buffer.offset).last = _
    rw [Buffer.patch]
    split <;> rfl
  rw [h.buffer_eq] at hedit
  refine ⟨h.pending_eq ▸ hedit, ?_⟩
  rw [Buffer.endsWith, hlast]
  exact h.no_pop

/-! ## Expressions, one constructor at a time -/

/-- Compiling the expression leaves no pop at the end. -/
def SettlesExpr (e : Expr) : Prop :=
  ∀ ⦃before around pending g⦄, g.At before around pending →
    EndsSettled before around pending (expr e g)

/-- Compiling the statement keeps all streams sound. -/
def SettlesStmt (s : Stmt) : Prop :=
  ∀ ⦃before around pending g⦄, g.At before around pending →
    EndsAt before around pending (stmt s g)

theorem free_of_prefixInstruction? {op : String} {i : Instruction}
    (h : prefixInstruction? op = some i) : Free i := by
  rw [prefixInstruction?_eq] at h
  obtain ⟨op, -, rfl⟩ := Option.map_eq_some_iff.1 h
  exact ⟨UnaryOp.fits op, by cases op <;> rfl, by cases op <;> rfl⟩

theorem free_of_infixInstruction? {op : String} {i : Instruction}
    (h : infixInstruction? op = some i) : Free i := by
  rw [infixInstruction?_eq] at h
  obtain ⟨op, -, rfl⟩ := Option.map_eq_some_iff.1 h
  refine ⟨BinaryOp.fits op, ?_, ?_⟩
  all_goals
    rcases op with op | wanted
    · cases op <;> rfl
    · cases wanted <;> rfl

theorem settles_prefixOp (op : String) (operand : Expr) (ih : SettlesExpr operand) :
    SettlesExpr (.prefixOp op operand) := by
  intro before around pending g h
  rw [expr]
  exact (ih h).bind fun h => h.toAt.applyOperator op fun _ => free_of_prefixInstruction?

theorem settles_infixOp (op : String) (left right : Expr) (ihl : SettlesExpr left)
    (ihr : SettlesExpr right) : SettlesExpr (.infixOp op left right) := by
  intro before around pending g h
  rw [expr]
  split
  · exact (ihr h).bind fun h => (ihl h.toAt).bind fun h =>
      h.toAt.emit ⟨fits_plain rfl rfl, rfl, rfl⟩
  · exact (ihl h).bind fun h => (ihr h.toAt).bind fun h =>
      h.toAt.applyOperator op fun _ => free_of_infixInstruction?

theorem settles_exprs {es : List Expr} (ih : ∀ e ∈ es, SettlesExpr e)
    (h : g.At before around pending) : EndsAt before around pending (exprs es g) := by
  induction es generalizing g with
  | nil =>
      rw [exprs]
      exact h
  | cons e es ihes =>
      obtain ⟨ihe, ihrest⟩ := List.forall_mem_cons.1 ih
      rw [exprs]
      exact (ihe h).bind fun h => ihes ihrest h.toAt

theorem settles_call (callee : Expr) (arguments : List Expr) (ihc : SettlesExpr callee)
    (iha : ∀ e ∈ arguments, SettlesExpr e) : SettlesExpr (.call callee arguments) := by
  intro before around pending g h
  rw [expr]
  exact (ihc h).bind fun h => (settles_exprs iha h.toAt).bind fun h =>
    h.count _ _ _ fun hle => ⟨fits_narrow rfl rfl hle, rfl, rfl⟩

theorem settles_index (container position : Expr) (ihc : SettlesExpr container)
    (ihp : SettlesExpr position) : SettlesExpr (.index container position) := by
  intro before around pending g h
  rw [expr]
  exact (ihc h).bind fun h => (ihp h.toAt).bind fun h =>
    h.toAt.emit ⟨fits_plain rfl rfl, rfl, rfl⟩

theorem settles_array (elements : List Expr) (ih : ∀ e ∈ elements, SettlesExpr e) :
    SettlesExpr (.array elements) := by
  intro before around pending g h
  rw [expr]
  exact (settles_exprs ih h).bind fun h =>
    h.count _ _ _ fun hle => ⟨fits_wide rfl rfl hle, rfl, rfl⟩

theorem settles_pairs {ps : List (Expr × Expr)} (ih : ∀ p ∈ ps, SettlesExpr p.1 ∧ SettlesExpr p.2)
    (h : g.At before around pending) :
    EndsAt before around pending (g.inTurn (ps.map fun p => (pairCode p).2)) := by
  induction ps generalizing g with
  | nil => exact h
  | cons p ps ihps =>
      obtain ⟨key, value⟩ := p
      obtain ⟨⟨ihk, ihv⟩, ihrest⟩ := List.forall_mem_cons.1 ih
      rw [List.map_cons, inTurn, pairCode]
      exact ((ihk h).bind fun h => ihv h.toAt).bind fun h => ihps ihrest h.toAt

theorem settles_hash (pairs : List (Expr × Expr))
    (ih : ∀ p ∈ pairs, SettlesExpr p.1 ∧ SettlesExpr p.2) : SettlesExpr (.hash pairs) := by
  intro before around pending g h
  have hperm : (ordered pairs).Perm pairs := List.mergeSort_perm _ _
  rw [expr, pairCodes_sorted]
  exact (settles_pairs (fun p hp => ih p (hperm.mem_iff.1 hp)) h).bind fun h =>
    h.count _ _ _ fun hle => ⟨fits_wide rfl rfl hle, rfl, rfl⟩

/-! ## Blocks, conditionals and functions -/

theorem settles_block {body : List Stmt} (ih : ∀ s ∈ body, SettlesStmt s)
    (h : g.At before around pending) : EndsAt before around pending (block body g) := by
  induction body generalizing g with
  | nil =>
      rw [block]
      exact h
  | cons s rest ihrest =>
      obtain ⟨ihs, ihss⟩ := List.forall_mem_cons.1 ih
      rw [block]
      exact (ihs h).bind fun h => ihrest ihss h

theorem settles_otherwise {alternative : Option (List Stmt)}
    (ih : ∀ body, alternative = some body → ∀ s ∈ body, SettlesStmt s)
    (h : g.At before around pending) :
    EndsSettled before around pending (otherwise alternative g) := by
  cases alternative with
  | none =>
      rw [otherwise]
      exact h.emit ⟨fits_plain rfl rfl, rfl, rfl⟩
  | some body =>
      rw [otherwise]
      exact (settles_block (ih body rfl) h).bind fun h => h.closeBranch

/-- The two jumps of a conditional wait for their targets, each from where it is written to where it
lands. -/
theorem settles_cond (condition : Expr) (consequence : List Stmt)
    (alternative : Option (List Stmt)) (ihc : SettlesExpr condition)
    (ihs : ∀ s ∈ consequence, SettlesStmt s)
    (iha : ∀ body, alternative = some body → ∀ s ∈ body, SettlesStmt s) :
    SettlesExpr (.cond condition consequence alternative) := by
  intro before around pending g h
  rw [expr]
  refine (ihc h).bind fun {g₁} h₁ => ?_
  have htest := h₁.toAt.emit_jump (i := .jumpUnless unknownTarget)
    (fits_wide rfl rfl (by decide)) rfl
  refine (settles_block ihs htest.toAt).bind fun {g₂} h₂ => ?_
  have hexit := h₂.closeBranch.toAt.emit_jump (i := .jump unknownTarget)
    (fits_wide rfl rfl (by decide)) rfl
  have hland := hexit.landHere (List.mem_cons_of_mem _ List.mem_cons_self)
  have herase : (g₂.closeBranch.buffer.offset :: g₁.buffer.offset :: pending).erase
      g₁.buffer.offset = g₂.closeBranch.buffer.offset :: pending := by
    rw [List.erase_cons]
    split
    · next heq => rw [eq_of_beq heq]
    · rw [List.erase_cons_head]
  rw [herase] at hland
  refine hland.bind fun h₃ => (settles_otherwise iha h₃.toAt).bind fun h₄ => ?_
  have hland := h₄.landHere List.mem_cons_self
  rw [List.erase_cons_head] at hland
  exact hland

theorem settles_function (parameters : List String) (body : List Stmt) (name : Option String)
    (ih : ∀ s ∈ body, SettlesStmt s) : SettlesExpr (.function parameters body name) := by
  intro before around pending g h
  rw [expr]
  refine .operand h.refused .parameters parameters.length fun _ => ?_
  refine (Ends.within h.buffer_eq (settles_block ih (h.enter name parameters))).bind
    fun hinner => ?_
  rw [← h.pending_eq]
  exact hinner.makeClosure h.buffer_eq parameters.length

/-! ## Statements -/

theorem settles_bind (name : String) (value : Expr) (ih : SettlesExpr value) :
    SettlesStmt (.bind name value) := by
  intro before around pending g h
  have hdefine : { g with symbols := (g.symbols.define name).2 }.At before around pending :=
    h.of_same rfl rfl
  rw [stmt]
  exact (ih hdefine).bind fun h => (h.toAt.store _).imp fun h => h.toAt

theorem settles_ret (value : Expr) (ih : SettlesExpr value) : SettlesStmt (.ret value) := by
  intro before around pending g h
  rw [stmt]
  exact (ih h).bind fun h => (h.toAt.emit ⟨fits_plain rfl rfl, rfl, rfl⟩).toAt

theorem settles_value (value : Expr) (ih : SettlesExpr value) : SettlesStmt (.expr value) := by
  intro before around pending g h
  rw [stmt]
  exact (ih h).bind fun h => h.pop

theorem hereditary_settles : Hereditary SettlesExpr SettlesStmt where
  ident name before around pending g h := by
    rw [expr]
    exact h.pushName name
  int value before around pending g h := by
    rw [expr]
    exact h.emitConstant _ .constant fun _ hle => ⟨fits_wide rfl rfl hle, rfl, rfl⟩
  str text before around pending g h := by
    rw [expr]
    exact h.emitConstant _ .constant fun _ hle => ⟨fits_wide rfl rfl hle, rfl, rfl⟩
  bool value before around pending g h := by
    rw [expr]
    refine h.emit ?_
    cases value <;> exact ⟨fits_plain rfl rfl, rfl, rfl⟩
  prefixOp := settles_prefixOp
  infixOp := settles_infixOp
  cond := settles_cond
  function := settles_function
  call := settles_call
  index := settles_index
  array := settles_array
  hash := settles_hash
  bind := settles_bind
  ret := settles_ret
  value := settles_value

end Codegen

/-! ## Programs -/

namespace Compiler

/-- What compiling a program does to its streams, up to its end or its refusal. -/
def record (c : Compiler) (p : Program) : List Action :=
  match Codegen.block p c.start with
  | .ok g => g.log.toList
  | .error refusal => refusal.state.log.toList

/-- The streams that are open when a program is compiled or refused, from the inside out. -/
def streams (c : Compiler) (p : Program) : List Buffer :=
  match Codegen.block p c.start with
  | .ok g => [g.buffer]
  | .error refusal => refusal.state.buffer :: refusal.around

/-- The log of a compilation leads to the streams that it ends with, which is just that of the
bytecode if the program is accepted. At every time of it, also if the program is refused in the end,
the streams of all open bodies fall into whole instructions and their buffers say the truth about
the last one. Whenever an instruction is taken back it is a pop, and no jump that has landed goes
past the end that is left. -/
theorem record_truthful (c : Compiler) (p : Program) :
    (∀ b, (c.compile p).1 = .ok b → (c.streams p).map Buffer.code = [b.code]) ∧
      (Desk.replay (c.record p)).buffers = c.streams p ∧
      ∀ past action, past ++ [action] <+: c.record p →
        (∀ s ∈ (Desk.replay (past ++ [action])).sheets, s.buffer.Truthful) ∧
          (action = .edit .dropLast → (Desk.replay past).sheet.Retracts) := by
  have hstart : c.start.At [] [] [] :=
    ⟨⟨[], .empty⟩, List.forall_mem_nil _, rfl, rfl, rfl, Desk.truthful_nil⟩
  have hends := Codegen.settles_block (Codegen.hereditary_settles.block p) hstart
  rw [compile, record, streams]
  cases hblock : Codegen.block p c.start with
  | ok g =>
      rw [hblock] at hends
      have hat : g.At [] [] [] := hends
      refine ⟨fun b hb => ?_, ?_, hat.log⟩
      · cases hb
        rfl
      · have hdesk : Desk.replay g.log.toList = g.desk [] := rfl
        rw [hdesk, Desk.buffers, Desk.sheets, List.map_cons, hat.around_eq, hat.buffer_eq]
        rfl
  | error refusal =>
      rw [hblock] at hends
      have hrefused : Codegen.Refused [] [] refusal := hends
      refine ⟨fun b hb => ?_, ?_, hrefused.log⟩
      · cases hb
      · have hstreams := hrefused.streams
        rw [List.map_nil, List.append_nil] at hstreams
        exact hstreams

/-- The third pop that is taken back stands where a jump of the inner conditional has landed. The
function around it is closed and given up later, since the last name is unknown. -/
theorem record_truthful_nestedSample :
    let inner : Expr := .cond (.ident "a") [.expr (.int 1)] (some [.expr (.int 2)])
    let outer : Expr := .cond (.ident "a") [.expr inner] none
    let sample : Program :=
      [.bind "f" (.function ["a"] [.expr outer] (some "f")), .expr (.ident "g")]
    let log := new.record sample
    (new.compile sample).1.map Bytecode.code = .error (.undefinedVariable "g") ∧
      log.take 15 ++ [.edit .dropLast] <+: log ∧
      (Desk.replay (log.take 15)).sheet.landed = [(13, 19), (7, 16)] ∧
      (Desk.replay (log.take 15)).sheet.Retracts := by
  intro inner outer sample log
  have hprefix : log.take 15 ++ [.edit .dropLast] <+: log := by decide +kernel
  have hretracts := ((record_truthful new sample).2.2 _ _ hprefix).2 rfl
  exact ⟨by decide +kernel, hprefix, by decide +kernel, hretracts⟩

end Compiler

end Monkey
