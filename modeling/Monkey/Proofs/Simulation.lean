import Monkey.Proofs.Compiled
import Monkey.Proofs.Scenes

/-!
# Compiled programs mean what their trees mean

The code of a program does on the machine what the evaluator does on its tree. The statement for a
part of the program is `Laid.ends`: a machine at the start of its code ends well if, for each way in
which the evaluation of the part can come out, the machine that has come out in that way does. It is
an induction on the layout of the code, with one case for each rule, and it takes for granted that
calls are as the evaluator has them.

That they are is an induction on the depth to which the evaluator follows calls. A function that is
called was laid out too, so what holds of parts of programs holds of its body. With a depth of as
many calls as the machine has frames, an exhausted evaluator means that the machine has none left.
-/

namespace Monkey

namespace Resolved

namespace Scene

/-- The run ends well from behind a statement with this value. -/
def Settles (sc : Scene) (Q : Progress → Prop) (temps : List Value) (ip : Nat) (v : Datum)
    (σ : Store) : Prop :=
  ∀ m, sc.At σ temps ip m → sc.Rel v m.lastPopped → m.Ends Q

/-- The run ends well from where the call has been left with this value. -/
def Leaves (sc : Scene) (Q : Progress → Prop) (v : Datum) (σ : Store) : Prop :=
  ∀ m v', sc.Left σ.world v' m → sc.Rel v v' → m.Ends Q

end Scene

/-- What has to be shown of the value of a block. -/
def Tail.Wanted (sc : Scene) (Q : Progress → Prop) (temps : List Value) (hi : Nat) :
    Tail → Datum → Store → Prop
  | .branch => sc.Pushes Q temps hi
  | .body => sc.Leaves Q

/-- What has to be shown of the evaluation of a part. Nothing is on the stack after statements, but
the value of the last one can still be read. -/
def Part.Wanted (sc : Scene) (Q : Progress → Prop) (depth hi : Nat) (σ : Store)
    (temps : List Value) (m : Machine) (part : Part) : Prop :=
  let call := callWithin sc.context.globalsSize depth
  match part with
  | .expr e => sc.Yields Q (e.eval call sc.context σ) (sc.Pushes Q temps hi)
  | .stmt s => sc.Yields Q (s.eval call sc.context σ) (sc.Settles Q temps hi)
  | .exprs es => sc.Yields Q (evalAll call sc.context es σ) (sc.PushesAll Q temps hi es.length)
  | .pairs ps =>
      sc.Yields Q (evalPairs call sc.context ps σ) (sc.PushesAll Q temps hi (2 * ps.length))
  | .loads symbols =>
      sc.PushesAll Q temps hi symbols.length (symbols.map (sc.context.lookup σ)) σ
  | .stmts ss => ∃ last, sc.Rel last m.lastPopped ∧
      sc.Yields Q (evalProgram call sc.context last ss σ) (sc.Settles Q temps hi)
  | .block tail ss =>
      sc.Yields Q (evalBlock call sc.context ss σ) (tail.Wanted sc Q temps hi)

/-- Calls are on the machine what they are in the evaluator. -/
def CallsWell (depth : Nat) : Prop :=
  ∀ ⦃sc : Scene⦄ ⦃Q : Progress → Prop⦄ ⦃room : Room⦄ ⦃σ : Store⦄ ⦃temps vs : List Value⦄
    ⦃ip next : Nat⦄ ⦃m : Machine⦄ ⦃callee : Datum⦄ ⦃callee' : Value⦄ ⦃arguments : List Datum⦄,
    sc.Fits room depth → sc.At σ (temps ++ callee' :: vs) ip m →
    sc.frame.body.code.Holds ip (.call vs.length) next → sc.Rel callee callee' →
    List.Forall₂ sc.Rel arguments vs →
    sc.Yields Q (callWithin sc.context.globalsSize depth callee arguments σ)
      (sc.Pushes Q temps next) → m.Ends Q

/-! ## Operators -/

section Operators

variable {R : Lambda → Template → Nat → Prop} {v w : Datum} {v' w' : Value}

theorem UnaryOp.related (op : UnaryOp) (hv : Related R v v') :
    ∃ f, op.instruction.unary? = some f ∧ RelatedAnswer R (op.apply v) (f v') := by
  cases op with
  | negate => exact ⟨_, rfl, hv.negate⟩
  | not =>
      refine ⟨_, rfl, ?_⟩
      show Related R (.bool !v.isTruthy) (.bool !v'.isTruthy)
      rw [hv.isTruthy_eq]
      exact .bool

theorem BinaryOp.related (op : BinaryOp) (hv : Related R v v') (hw : Related R w w') :
    ∃ f, op.instruction.binary? = some f ∧ RelatedAnswer R (op.apply v w) (f v' w') := by
  rcases op with op | wanted
  · cases op <;> exact ⟨_, rfl, Related.binary _ hv hw⟩
  · have hsame : Related R (.bool (v.identical w == wanted))
        (.bool (v'.identical w' == wanted)) := by
      rw [hv.identical_eq hw]
      exact .bool
    cases wanted <;> exact ⟨_, rfl, hsame⟩

end Operators

/-! ## Parts of programs -/

section Parts

variable {sc : Scene} {Q : Progress → Prop} {depth : Nat}

open Scene in
theorem Laid.ends (hcalls : CallsWell depth) {room : Room} {code : Code} {part : Part} {lo hi : Nat}
    (hlaid : Laid sc.constants room code part lo hi) (hcode : sc.frame.body.code = code)
    (hfit : sc.Fits room depth) (hin : part.Inside room) {σ : Store} {temps : List Value}
    {m : Machine} (hat : sc.At σ temps lo m) (h : part.Wanted sc Q depth hi σ temps m) :
    m.Ends Q := by
  induction hlaid generalizing σ temps m with
  | symbol hs hi =>
      subst hcode
      rw [Part.Wanted, Expr.eval] at h
      obtain ⟨v', hv', hrel⟩ := hat.lookup hfit hs _
      exact hat.source hi hv' hrel h
  | int hi hk =>
      subst hcode
      rw [Part.Wanted, Expr.eval] at h
      exact hat.constant hi hk .int h
  | str hi hk =>
      subst hcode
      rw [Part.Wanted, Expr.eval] at h
      exact hat.constant hi hk .str h
  | @bool _ _ _ next value hi =>
      subst hcode
      rw [Part.Wanted, Expr.eval] at h
      have hvalue : (if value then Instruction.pushTrue else .pushFalse).source? (m.advance next) =
          some (.bool value) := by
        cases value <;> rfl
      exact hat.source hi hvalue .bool h
  | unary _ hi ih =>
      subst hcode
      rw [Part.Wanted, Expr.eval, yields_bind] at h
      refine ih rfl hfit trivial hat (h.mono fun v σ₁ h₁ m₁ v' hat₁ hv => ?_)
      obtain ⟨f, hf, hrel⟩ := UnaryOp.related _ hv
      exact hat₁.operator hi (fun ys => Machine.execute_unary hf) hrel h₁
  | binary _ _ hi ih₁ ih₂ =>
      subst hcode
      rw [Part.Wanted, Expr.eval, yields_bind] at h
      refine ih₁ rfl hfit trivial hat (h.mono fun l σ₁ h₁ m₁ l' hat₁ hl => ?_)
      rw [yields_bind] at h₁
      refine ih₂ rfl hfit trivial hat₁ (h₁.mono fun r σ₂ h₂ m₂ r' hat₂ hr => ?_)
      obtain ⟨f, hf, hrel⟩ := BinaryOp.related _ hl hr
      rw [List.append_assoc] at hat₂
      exact hat₂.operator hi (fun ys => Machine.execute_binary hf) hrel h₂
  | less _ _ hi ih₁ ih₂ =>
      subst hcode
      rw [Part.Wanted, Expr.eval, yields_bind] at h
      refine ih₁ rfl hfit trivial hat (h.mono fun r σ₁ h₁ m₁ r' hat₁ hr => ?_)
      rw [yields_bind] at h₁
      refine ih₂ rfl hfit trivial hat₁ (h₁.mono fun l σ₂ h₂ m₂ l' hat₂ hl => ?_)
      rw [List.append_assoc] at hat₂
      exact hat₂.operator hi (fun ys => Machine.execute_binary rfl)
        (Related.binary .greater hr hl) h₂
  | index _ _ hi ih₁ ih₂ =>
      subst hcode
      rw [Part.Wanted, Expr.eval, yields_bind] at h
      refine ih₁ rfl hfit trivial hat (h.mono fun c σ₁ h₁ m₁ c' hat₁ hc => ?_)
      rw [yields_bind] at h₁
      refine ih₂ rfl hfit trivial hat₁ (h₁.mono fun p σ₂ h₂ m₂ p' hat₂ hp => ?_)
      rw [List.append_assoc] at hat₂
      exact hat₂.operator hi (fun ys => Machine.execute_binary rfl) (hc.atIndex hp) h₂
  | cond _ htest _ hexit _ ihc iha ihb =>
      subst hcode
      rw [Part.Wanted, Expr.eval, yields_bind] at h
      refine ihc rfl hfit trivial hat (h.mono fun v σ₁ h₁ m₁ v' hat₁ hv => ?_)
      refine hat₁.jumpUnless htest fun m₂ hat₂ => ?_
      rw [hv.isTruthy_eq] at h₁
      cases hv' : v'.isTruthy <;> rw [hv'] at h₁ hat₂
      · exact ihb rfl hfit Part.inside_branch hat₂ h₁
      · refine iha rfl hfit Part.inside_branch hat₂ (h₁.mono fun w σ₂ h₂ m₃ w' hat₃ hw => ?_)
        exact hat₃.jump hexit fun m₄ hat₄ => h₂ m₄ w' hat₄ hw
  | @function _ _ _ _ _ k id captures body t _ hi hk hp _ hbody ih =>
      subst hcode
      rw [Part.Wanted, Expr.eval] at h
      refine ih rfl hfit trivial hat fun m₁ vs' hat₁ hvs hlen => ?_
      have hf : (Instruction.closure k captures.length).collect? sc.constants =
          some (vs'.length, fun vs => .ok fun id => .closure id t vs) := by
        rw [Instruction.collect?, hk, hlen]
      have hbody' : CodeOf sc.constants sc.globals ⟨t.parameters, t.locals, body⟩ t
          (captures.map (sc.context.lookup σ)).length := by
        rw [List.length_map]
        exact ⟨rfl, rfl, hp, hbody.mono (.refl _)
          ⟨hfit.globals.le, Nat.zero_le _, Nat.le_refl _, Nat.le_refl _, rfl⟩⟩
      exact hat₁.create hi hf rfl (fun id => .closure hbody' hvs) h
  | call _ _ hi ih₁ ih₂ =>
      subst hcode
      rw [Part.Wanted, Expr.eval, yields_bind] at h
      refine ih₁ rfl hfit trivial hat (h.mono fun f σ₁ h₁ m₁ f' hat₁ hf => ?_)
      rw [yields_bind] at h₁
      refine ih₂ rfl hfit trivial hat₁ (h₁.mono fun vs σ₂ h₂ m₂ vs' hat₂ hvs hlen => ?_)
      rw [List.append_assoc] at hat₂
      rw [← hlen] at hi
      exact hcalls hfit hat₂ hi hf hvs h₂
  | array _ hi ih =>
      subst hcode
      rw [Part.Wanted, Expr.eval, yields_bind] at h
      refine ih rfl hfit trivial hat (h.mono fun vs σ₁ h₁ m₁ vs' hat₁ hvs hlen => ?_)
      rw [← hlen] at hi
      exact hat₁.create hi rfl rfl (fun id => .array hvs) h₁
  | hash _ hi ih =>
      subst hcode
      rw [Part.Wanted, Expr.eval, yields_bind] at h
      refine ih rfl hfit trivial hat (h.mono fun vs σ₁ h₁ m₁ vs' hat₁ hvs hlen => ?_)
      rw [← hlen] at hi
      have hentries := Related.collectEntries hvs .nil
      cases hes : ValueOf.collectEntries [] vs <;> cases hes' : ValueOf.collectEntries [] vs' <;>
        rw [hes, hes'] at hentries <;> rw [hes] at h₁
      case ok.ok es es' =>
        refine hat₁.create hi rfl ?_ (fun id => .hash hentries) h₁
        rw [hes']
        rfl
      case error.error f f' =>
        obtain ⟨rfl, -⟩ := hentries
        refine hat₁.collect_fault hi rfl ?_ h₁
        rw [hes']
        rfl
      all_goals exact hentries.elim
  | exprsNil | pairsNil | loadsNil =>
      rw [← List.append_nil temps] at hat
      exact h m [] hat .nil rfl
  | exprsCons _ _ ih₁ ih₂ =>
      subst hcode
      rw [Part.Wanted, evalAll, yields_bind] at h
      refine ih₁ rfl hfit trivial hat (h.mono fun v σ₁ h₁ m₁ v' hat₁ hv => ?_)
      rw [yields_bind] at h₁
      refine ih₂ rfl hfit trivial hat₁ (h₁.mono fun vs σ₂ h₂ m₂ vs' hat₂ hvs hlen => ?_)
      rw [List.append_assoc] at hat₂
      exact h₂ m₂ (v' :: vs') hat₂ (.cons hv hvs) (congrArg (· + 1) hlen)
  | pairsCons _ _ _ ih₁ ih₂ ih₃ =>
      subst hcode
      rw [Part.Wanted, evalPairs, yields_bind] at h
      refine ih₁ rfl hfit trivial hat (h.mono fun k σ₁ h₁ m₁ k' hat₁ hk => ?_)
      rw [yields_bind] at h₁
      refine ih₂ rfl hfit trivial hat₁ (h₁.mono fun v σ₂ h₂ m₂ v' hat₂ hv => ?_)
      rw [yields_bind] at h₂
      refine ih₃ rfl hfit trivial hat₂ (h₂.mono fun vs σ₃ h₃ m₃ vs' hat₃ hvs hlen => ?_)
      rw [List.append_assoc, List.append_assoc] at hat₃
      exact h₃ m₃ (k' :: v' :: vs') hat₃ (.cons hk (.cons hv hvs)) (congrArg (· + 2) hlen)
  | loadsCons hs hi _ ih =>
      subst hcode
      obtain ⟨v', hv', hrel⟩ := hat.lookup hfit hs _
      refine hat.source hi hv' hrel fun m₁ w hat₁ hw => ?_
      refine ih rfl hfit trivial hat₁ fun m₂ vs' hat₂ hvs hlen => ?_
      rw [List.append_assoc] at hat₂
      exact h m₂ (w :: vs') hat₂ (.cons hw hvs) (congrArg (· + 1) hlen)
  | bind _ hs hi ih =>
      subst hcode
      rw [Part.Wanted, Stmt.eval, yields_bind] at h
      refine ih rfl hfit trivial hat (h.mono fun v σ₁ h₁ m₁ v' hat₁ hv => ?_)
      rw [yields_bind] at h₁
      refine hat₁.assign hfit hs hi hv (h₁.mono fun _ σ₂ h₂ m₂ hat₂ hlast => ?_)
      exact h₂ m₂ hat₂ (hlast ▸ hv)
  | ret _ hi ih =>
      subst hcode
      rw [Part.Wanted, Stmt.eval, yields_bind] at h
      refine ih rfl hfit trivial hat (h.mono fun v σ₁ h₁ m₁ v' hat₁ hv => ?_)
      exact hat₁.returnValue hfit hi fun m₂ hleft => h₁ m₂ v' hleft hv
  | value _ hi ih =>
      subst hcode
      rw [Part.Wanted, Stmt.eval] at h
      refine ih rfl hfit trivial hat (h.mono fun v σ₁ h₁ m₁ v' hat₁ hv => ?_)
      exact hat₁.pop hi fun m₂ hat₂ hlast => h₁ m₂ hat₂ (hlast ▸ hv)
  | stmtsNil =>
      obtain ⟨last, hlast, h⟩ := h
      exact h m hat hlast
  | stmtsCons _ _ ih₁ ih₂ =>
      subst hcode
      obtain ⟨last, -, h⟩ := h
      rw [evalProgram, yields_bind] at h
      refine ih₁ rfl hfit trivial hat (h.mono fun v σ₁ h₁ m₁ hat₁ hlast => ?_)
      exact ih₂ rfl hfit trivial hat₁ ⟨v, hlast, h₁⟩
  | @blockNil _ _ _ _ tail hi =>
      subst hcode
      rw [Part.Wanted, evalBlock] at h
      cases tail with
      | branch => exact hat.source hi rfl .null h
      | body => exact hat.returnNull hfit (hin rfl) hi fun m₁ hleft => h m₁ .null hleft .null
  | blockBind _ _ ih₁ ih₂ =>
      subst hcode
      rw [Part.Wanted, evalBlock, yields_bind] at h
      refine ih₁ rfl hfit trivial hat (h.mono fun v σ₁ h₁ m₁ hat₁ _ => ?_)
      refine ih₂ rfl hfit hin hat₁ ?_
      rw [Part.Wanted, evalBlock]
      exact h₁
  | blockRet _ ih =>
      -- Nothing comes after a return, so what is wanted of a value does not matter.
      subst hcode
      rw [Part.Wanted, evalBlock, yields_bind, Stmt.eval, yields_bind] at h
      refine ih rfl hfit trivial hat ?_
      rw [Part.Wanted, Stmt.eval, yields_bind]
      exact h
  | @blockValue _ _ _ _ _ _ tail _ hc ih =>
      subst hcode
      rw [Part.Wanted, evalBlock, yields_bind, Stmt.eval] at h
      refine ih rfl hfit trivial hat (h.mono fun v σ₁ h₁ m₁ v' hat₁ hv => ?_)
      cases tail with
      | branch =>
          have hc : _ = _ := hc
          exact h₁ m₁ v' (hc ▸ hat₁) hv
      | body => exact hat₁.returnValue hfit hc fun m₂ hleft => h₁ m₂ v' hleft hv
  | blockCons _ _ ih₁ ih₂ =>
      subst hcode
      rw [Part.Wanted, evalBlock, yields_bind] at h
      refine ih₁ rfl hfit trivial hat (h.mono fun v σ₁ h₁ m₁ hat₁ _ => ?_)
      exact ih₂ rfl hfit hin hat₁ h₁

end Parts

/-! ## Calls -/

namespace Scene

variable {sc : Scene} {Q : Progress → Prop} {σ : Store} {id : Identity} {f : Lambda} {t : Template}
  {captured : List Datum} {captured' slots temps : List Value} {next : Nat}

/-- The scene of a call that the call of another scene makes. -/
def enter (sc : Scene) (id : Identity) (f : Lambda) (t : Template) {captured : List Datum}
    {captured' : List Value} (hcaptured : List.Forall₂ sc.Rel captured captured')
    (slots temps : List Value) (next : Nat) : Scene where
  limits := sc.limits
  constants := sc.constants
  globals := sc.globals
  context := ⟨captured, .closure id f captured, sc.context.globalsSize⟩
  frame := { id, body := t, captured := captured', base := (sc.stack slots temps).length + 1 }
  callers := sc.callers.push (sc.frame.at next)
  below := sc.stack slots temps ++ [.closure id t captured']
  unlimited := sc.unlimited
  globalsSize := sc.globalsSize
  base := by rw [List.length_append]; rfl
  captured := hcaptured

theorem enter_fits {room : Room} {depth : Nat} (hfit : sc.Fits room (depth + 1))
    (hcode : CodeOf sc.constants sc.globals f t captured.length)
    (hcaptured : List.Forall₂ sc.Rel captured captured') (slots temps : List Value) (next : Nat) :
    (sc.enter id f t hcaptured slots temps next).Fits
      ⟨sc.globals, 0, t.locals, captured.length, true⟩ depth := by
  refine ⟨rfl, Nat.le_refl _, hcaptured.length_eq.le, fun _ => .closure hcode hcaptured, nofun,
    fun _ => ⟨_, _, rfl, ?_⟩, ?_⟩
  · show 0 < (sc.stack slots temps ++ [ValueOf.closure id t captured']).length
    rw [List.length_append]
    exact Nat.succ_pos _
  · have hdepth := hfit.depth
    show sc.limits.maxFrames ≤ (sc.callers.push (sc.frame.at next)).size + 1 + depth
    rw [Array.size_push]
    omega

theorem enter_at {m m' : Machine} {ip : Nat} {arguments : List Datum} {vs : List Value}
    (hcode : CodeOf sc.constants sc.globals f t captured.length)
    (hcaptured : List.Forall₂ sc.Rel captured captured')
    (hat : sc.At σ (temps ++ .closure id t captured' :: vs) ip m)
    (hvs : List.Forall₂ sc.Rel arguments vs) (hargs : vs.length = t.parameters)
    (hm : (m.advance next).Leads m'
      { id, body := t, captured := captured', base := (sc.stack slots temps).length + 1 }
      ((m.advance next).callers.push (m.advance next).frame)
      (sc.stack slots temps ++ .closure id t captured' :: Machine.slotsOf t.locals vs)
      (m.advance next).world) :
    (sc.enter id f t hcaptured slots temps next).At
      { σ with slots := Machine.slotsOf f.locals arguments } [] 0 m' := by
  refine ⟨hm.limits.trans hat.limits, hm.constants.trans hat.constants, hm.frame, ?_,
    ⟨Machine.slotsOf t.locals vs, ?_, ?_, ?_⟩, hm.world ▸ hat.world⟩
  · rw [hm.callers, hat.frame_advance]
    show m.callers.push (sc.frame.at next) = _
    rw [hat.callers]
    rfl
  · rw [Machine.slotsOf, Machine.slotsOf, hcode.locals, hvs.length_eq]
    exact List.rel_append hvs (forall₂_replicate .null _)
  · exact Machine.length_slotsOf (hargs ▸ hcode.parameters_le)
  · have hshows := hm.shows
    show m'.Shows ((sc.stack slots temps ++ [.closure id t captured']) ++
      (Machine.slotsOf t.locals vs ++ []))
    rw [List.append_nil, List.append_assoc]
    exact hshows

theorem Left.back {hcaptured : List.Forall₂ sc.Rel captured captured'} {w : WorldOf Lambda}
    {v : Value} {m : Machine} (h : (sc.enter id f t hcaptured slots temps next).Left w v m)
    (hslots : List.Forall₂ sc.Rel σ.slots slots)
    (hlen : slots.length = sc.frame.body.locals) :
    sc.At { σ with world := w } (temps ++ [v]) next m := by
  cases h with
  | outer hcallers => exact absurd hcallers Array.push_ne_empty
  | @inner b hcallers hb hlimits hconstants hshows hw =>
      obtain ⟨hframe, hcallers⟩ := Array.push_eq_push.1 hcallers
      have hb' : (sc.stack slots temps).length = b := by
        have hsucc : (sc.stack slots temps ++ [ValueOf.closure id t captured']).length = b + 1 := hb
        rw [List.length_append] at hsucc
        exact Nat.succ.inj hsucc
      refine ⟨hlimits, hconstants, hframe.symm, hcallers.symm, ⟨slots, hslots, hlen, ?_⟩, hw⟩
      have htake : (sc.stack slots temps ++ [ValueOf.closure id t captured']).take b =
          sc.stack slots temps := by
        rw [← hb', List.take_left]
      rw [stack_append, ← htake]
      exact hshows

/-- What a call yields in the scene that makes it, its body yields in the scene of the call. -/
theorem Yields.inCall {hcaptured : List.Forall₂ sc.Rel captured captured'} {slots' : List Datum}
    {body : Eval Datum} (h : sc.Yields Q (inCall slots' body σ) (sc.Pushes Q temps next))
    (hslots : List.Forall₂ sc.Rel σ.slots slots)
    (hlen : slots.length = sc.frame.body.locals) :
    (sc.enter id f t hcaptured slots temps next).Yields Q (body { σ with slots := slots' })
      ((sc.enter id f t hcaptured slots temps next).Leaves Q) := by
  rw [Resolved.inCall] at h
  match hbody : body { σ with slots := slots' } with
  | .ok v σ' | .error (.returned v) σ' =>
      rw [hbody] at h
      exact fun m v' hleft hv => h m v' (hleft.back hslots hlen) hv
  | .error (.fault e) σ' =>
      rw [hbody] at h
      exact h
  | .error .exhausted σ' => trivial

end Scene

theorem calls_answer {sc : Scene} {Q : Progress → Prop} {depth : Nat} {σ : Store}
    {temps vs : List Value} {ip next : Nat} {m : Machine} {callee : Datum} {callee' : Value}
    {arguments : List Datum} (hat : sc.At σ (temps ++ callee' :: vs) ip m)
    (hi : sc.frame.body.code.Holds ip (.call vs.length) next) (hcallee : sc.Rel callee callee')
    (hvs : List.Forall₂ sc.Rel arguments vs)
    (hc : ∀ id f captured, callee ≠ .closure id f captured)
    (h : sc.Yields Q (callWithin sc.context.globalsSize depth callee arguments σ)
      (sc.Pushes Q temps next)) : m.Ends Q := by
  have hc' : ∀ id t captured, callee' ≠ .closure id t captured := by
    rintro id t captured rfl
    cases hcallee
    exact hc _ _ _ rfl
  obtain ⟨body, hbody⟩ := callWithin_eq sc.context.globalsSize depth
  rw [hbody, callWith_of_not_closure hc] at h
  refine hat.answer hi hc' hcallee hvs (fun v w heq => ?_) (fun f heq => ?_)
  · rw [heq] at h
    exact h
  · rw [heq] at h
    exact h

/-- A closure: the machine makes the checks that the evaluator makes, and those of its own. -/
theorem calls_closure {depth : Nat} (hcalls : ∀ d, depth = d + 1 → CallsWell d) {sc : Scene}
    {Q : Progress → Prop} {room : Room} {σ : Store} {temps vs captured' : List Value}
    {ip next : Nat} {m : Machine} {id : Identity} {f : Lambda} {t : Template}
    {captured arguments : List Datum} (hfit : sc.Fits room depth)
    (hat : sc.At σ (temps ++ .closure id t captured' :: vs) ip m)
    (hi : sc.frame.body.code.Holds ip (.call vs.length) next)
    (hcode : CodeOf sc.constants sc.globals f t captured.length)
    (hcaptured : List.Forall₂ sc.Rel captured captured')
    (hvs : List.Forall₂ sc.Rel arguments vs)
    (h : sc.Yields Q
      (callWithin sc.context.globalsSize depth (.closure id f captured) arguments σ)
      (sc.Pushes Q temps next)) : m.Ends Q := by
  obtain ⟨slots, hslots, hlen, hshows⟩ := hat.shows next
  have hcount : arguments.length = vs.length := hvs.length_eq
  rcases Machine.execute_closure hshows hcode.parameters_le with
    ⟨hne, heq⟩ | ⟨_, _, heq⟩ | ⟨_, heq⟩ | ⟨hargs, hframes, m', heq, hm⟩
  · have hne' : arguments.length ≠ f.parameters := by
      rw [hcount, hcode.parameters]
      exact hne
    obtain ⟨body, hbody⟩ := callWithin_eq sc.context.globalsSize depth
    rw [hbody, callWith_closure, if_pos hne', hcount, hcode.parameters] at h
    exact Machine.ends_of_error hat.unlimited (hat.holds hi) heq (.inl (h _ hat.world))
  · exact Machine.ends_of_error hat.unlimited (hat.holds hi) heq (.inr rfl)
  · exact Machine.ends_of_error hat.unlimited (hat.holds hi) heq (.inr rfl)
  · have heq' : ¬arguments.length ≠ f.parameters := by
      rw [hcount, hcode.parameters]
      exact not_not.2 hargs
    cases depth with
    | zero =>
        -- The depth covers the frames that are left, and there is one.
        have hdepth := hfit.depth
        have hframes' : m.callers.size + 1 < m.limits.maxFrames := hframes
        rw [hat.callers, hat.limits] at hframes'
        omega
    | succ depth =>
        rw [callWithin, callWith_closure, if_neg heq'] at h
        refine Machine.ends_of_ok hat.unlimited (hat.holds hi) heq ?_
        have hlaid : Laid (sc.enter id f t hcaptured slots temps next).constants _ t.code
          (.block .body f.body) 0 t.code.size := hcode.laid
        exact hlaid.ends (hcalls depth rfl) rfl
          (Scene.enter_fits hfit hcode hcaptured slots temps next) (fun _ => rfl)
          (Scene.enter_at hcode hcaptured hat hvs hargs hm) (h.inCall hslots hlen)

theorem callsWell (depth : Nat) : CallsWell depth := by
  have hany : ∀ depth, (∀ d, depth = d + 1 → CallsWell d) → CallsWell depth := by
    intro depth hcalls sc Q room σ temps vs ip next m callee callee' arguments hfit hat hi hcallee
      hvs h
    by_cases hc : ∃ id f captured, callee = .closure id f captured
    · obtain ⟨id, f, captured, rfl⟩ := hc
      cases hcallee with
      | closure hcode hcaptured =>
          exact calls_closure hcalls hfit hat hi hcode hcaptured hvs h
    · exact calls_answer hat hi hcallee hvs (fun id f captured heq => hc ⟨id, f, captured, heq⟩) h
  induction depth with
  | zero => exact hany 0 nofun
  | succ depth ih =>
      refine hany (depth + 1) fun d hd => ?_
      rw [← Nat.succ.inj hd]
      exact ih

/-! ## Programs -/

/-- A run that has ended as an evaluation has: with the same value, or the same fault, in the same
world. Values and worlds are the same up to the bodies of functions, which are code here and trees
there. -/
def Agrees (K : Array Value) (globals : Nat) (outcome : Except Stop Datum × WorldOf Lambda) :
    Progress → Prop
  | .halted m => ∃ v, outcome.1 = .ok v ∧ Related (CodeOf K globals) v m.lastPopped ∧
      RelatedWorld (CodeOf K globals) outcome.2 m.world
  | .faulted f m => outcome.1 = .error (.fault f) ∧
      RelatedWorld (CodeOf K globals) outcome.2 m.world
  | .running _ => False

/-- The scene of the top level. -/
def Scene.outermost (limits : Limits) (hsteps : limits.maxSteps = none) (b : Bytecode)
    (globals : Nat) (self : Identity) : Scene where
  limits
  constants := b.constants
  globals
  context := ⟨[], .null, limits.globalsSize⟩
  frame := { id := self, body := ⟨b.code, 0, 0⟩, captured := [] }
  callers := #[]
  below := []
  unlimited := hsteps
  globalsSize := rfl
  base := rfl
  captured := .nil

section Programs

variable {limits : Limits} {hsteps : limits.maxSteps = none} {b : Bytecode} {globals depth : Nat}
  {issued self : Identity} {console : Console}

theorem Scene.outermost_fits (hdepth : limits.maxFrames ≤ depth + 1) (own : Nat) :
    (outermost limits hsteps b globals self).Fits ⟨globals, own, 0, 0, false⟩ depth := by
  refine ⟨rfl, Nat.le_refl _, Nat.le_refl _, nofun, fun _ => rfl, nofun, ?_⟩
  show limits.maxFrames ≤ 0 + 1 + depth
  omega

theorem Scene.outermost_at :
    (outermost limits hsteps b globals self).At ⟨[], ⟨#[], issued, console⟩⟩ [] 0
      (Machine.start limits b #[] issued console self) := by
  refine ⟨rfl, rfl, rfl, rfl, ⟨[], .nil, rfl, rfl, Nat.zero_le _, nofun⟩, rfl, fun i => ?_, rfl,
    rfl⟩
  show Option.Rel _ (#[])[i]? (#[])[i]?
  rw [Array.getElem?_empty, Array.getElem?_empty]
  exact .none

theorem Scene.outermost_halts {σ : Store} {v : Datum} {m : Machine}
    {outcome : Except Stop Datum × WorldOf Lambda} (hip : m.frame.ip = m.frame.body.code.size)
    (hv : (outermost limits hsteps b globals self).Rel v m.lastPopped)
    (hw : (outermost limits hsteps b globals self).RelWorld σ.world m.world)
    (houtcome : outcome = (.ok v, σ.world)) :
    m.Ends (Agrees b.constants globals outcome) := by
  subst houtcome
  exact Machine.ends_of_halted (Machine.step_end hip) ⟨v, rfl, hv, hw⟩

/-- What the statements of a program yield is what has to be shown of it. -/
theorem Scene.outermost_yields {rs : List Stmt} {w : WorldOf Lambda} :
    (outermost limits hsteps b globals self).Yields
      (Agrees b.constants globals (evaluate depth limits.globalsSize rs w))
      (evalProgram (callWithin limits.globalsSize depth) ⟨[], .null, limits.globalsSize⟩ .null rs
        ⟨[], w⟩)
      ((outermost limits hsteps b globals self).Settles
        (Agrees b.constants globals (evaluate depth limits.globalsSize rs w)) [] b.code.size) := by
  match hr : evalProgram (callWithin limits.globalsSize depth) ⟨[], .null, limits.globalsSize⟩ .null
      rs ⟨[], w⟩ with
  | .ok v σ =>
      intro m hat hv
      refine outermost_halts ?_ hv hat.world ?_
      · rw [hat.frame]
        rfl
      · rw [evaluate, inCall, hr]
  | .error (.returned v) σ =>
      intro m v' hleft hv
      cases hleft with
      | outer _ hip hlast hw =>
          subst hlast
          refine outermost_halts hip hv hw ?_
          rw [evaluate, inCall, hr]
      | inner hcallers => exact absurd hcallers.symm Array.push_ne_empty
  | .error (.fault f) σ =>
      intro m hw
      have heval : evaluate depth limits.globalsSize rs w = (.error (.fault f), σ.world) := by
        rw [evaluate, inCall, hr]
      rw [heval]
      exact ⟨rfl, hw⟩
  | .error .exhausted σ => trivial

end Programs

end Resolved

namespace Compiler

open Resolved

/-- A program that a new compiler accepts runs as it evaluates. The run comes to an end, and unless
the machine has no room left, it ends as the evaluation does that follows as many calls as the
machine has frames. -/
theorem compile_agrees (p : Program) (b : Bytecode) (c : Compiler)
    (h : new.compile p = (.ok b, c)) (limits : Limits) (hsteps : limits.maxSteps = none)
    (issued self : Identity) (console : Console) (depth : Nat)
    (hdepth : limits.maxFrames ≤ depth + 1) :
    ∃ rs, program p = some rs ∧
      (∃ n, ((Machine.start limits b #[] issued console self).run n).Ended) ∧
      ∀ n, ((Machine.start limits b #[] issued console self).run n).Ended →
        (∀ f m, (Machine.start limits b #[] issued console self).run n = .faulted f m →
          f.overflow = false) →
        Agrees b.constants c.globals
          (evaluate depth limits.globalsSize rs ⟨#[], issued, console⟩)
          ((Machine.start limits b #[] issued console self).run n) := by
  obtain ⟨rs, hrs, hlaid⟩ := (compile_eq_ok new_wf h).laid
  have hprogram : program p = some rs := by
    have hrs' : block p builtinSymbols = some (rs, c.symbols) := hrs
    rw [program, hrs']
    rfl
  have hlast : (Scene.outermost limits hsteps b c.globals self).Rel .null
      (Machine.start limits b #[] issued console self).lastPopped := by
    show Related _ .null ((Array.replicate limits.stackSize ValueOf.null)[0]?.getD .null)
    rw [Array.getElem?_replicate]
    split <;> exact .null
  have hlaid' : Laid (Scene.outermost limits hsteps b c.globals self).constants _ b.code _ 0
    b.code.size := hlaid
  obtain ⟨n, hended, hn⟩ :=
    hlaid'.ends (callsWell depth) rfl (Scene.outermost_fits hdepth _) trivial
    Scene.outermost_at ⟨.null, hlast, Scene.outermost_yields⟩
  refine ⟨rs, hprogram, ⟨n, hended⟩, fun n' hended' hroom => ?_⟩
  rw [Machine.run_eq_of_ended hended' hended] at hroom ⊢
  rcases hn with hn | ⟨f, m, heq, hf⟩
  · exact hn
  · rw [hroom f m heq] at hf
    cases hf

/-- A function that returns from the middle of a sum, or calls a function that captures its
parameter. -/
def earlyReturnSample : Program :=
  [.bind "pick" (.function ["x"]
      [.expr (.infixOp "+" (.int 1)
        (.cond (.infixOp "<" (.ident "x") (.int 3)) [.ret (.ident "x")]
          (some [.expr (.call
            (.function ["y"] [.expr (.infixOp "+" (.ident "x") (.ident "y"))] none) [.int 10])])))]
      (some "pick")),
    .expr (.infixOp "+"
      (.index
        (.hash [(.int 2, .call (.ident "pick") [.int 1]), (.int 1, .call (.ident "pick") [.int 5])])
        (.int 1))
      (.call (.ident "pick") [.int 2]))]

theorem compile_agrees_earlyReturnSample :
    ∃ b c rs m, new.compile earlyReturnSample = (.ok b, c) ∧
      program earlyReturnSample = some rs ∧
      (Machine.start { stackSize := 20, maxFrames := 4 } b #[] 0 {}).run 100 = .halted m ∧
      m.lastPopped = .int 18 ∧ (evaluate 3 65536 rs ⟨#[], 0, {}⟩).1 = .ok (.int 18) := by
  have hrun : (new.compile earlyReturnSample).1.toOption.bind (fun b => Machine.keyOf?
      ((Machine.start { stackSize := 20, maxFrames := 4 } b #[] 0 {}).run 100)) =
        some (.int 18) := by
    cbv
  rcases hc : new.compile earlyReturnSample with ⟨e | b, c⟩ <;> rw [hc] at hrun
  · cases hrun
  · obtain ⟨rs, hrs, -, hagrees⟩ :=
      compile_agrees _ b c hc { stackSize := 20, maxFrames := 4 } rfl 0 0 {} 3 (Nat.le_refl 4)
    have hend := hagrees 100
    obtain ⟨m, hm, hkey⟩ := Machine.eq_halted_of_keyOf? hrun
    rw [hm] at hend
    obtain ⟨v, hv, hrel, -⟩ := hend (Progress.ended_halted m) (fun _ _ h => by cases h)
    have hlast : m.lastPopped = .int 18 := by
      cases hm' : m.lastPopped <;> rw [hm'] at hkey <;> cases hkey
      rfl
    rw [hlast] at hrel
    cases hrel
    exact ⟨b, c, rs, m, rfl, hrs, hm, hlast, hv⟩

end Compiler

end Monkey
