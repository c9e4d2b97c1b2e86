import ThreeAddress.Machine.Run
import ThreeAddress.Proofs.Except

/-!
# What a step does

`Effect` has one rule for each instruction and says all that a step can do when it succeeds. What
follows about machines follows from the rules, not from `step`.
-/

namespace ThreeAddress.Action

variable {α β : Type} {m m' : Machine}

/-! ## Actions that succeed -/

theorem run_bind_eq_ok {x : Action α} {f : α → Action β} {b : β} :
    (x >>= f).run m = .ok b m' ↔ ∃ a m₁, x.run m = .ok a m₁ ∧ (f a).run m₁ = .ok b m' := by
  rw [EStateM.run_bind]
  cases h : x.run m with
  | ok a m₁ =>
    constructor
    · intro h'
      exact ⟨a, m₁, rfl, h'⟩
    · rintro ⟨_, _, ⟨⟩, h'⟩
      exact h'
  | error e m₁ => simp

theorem run_pure_eq_ok {a b : α} : (pure a : Action α).run m = .ok b m' ↔ a = b ∧ m = m' := by
  simp

theorem run_modify_eq_ok {f : Machine → Machine} {u : Unit} :
    (modify f : Action Unit).run m = .ok u m' ↔ f m = m' := by
  simp

theorem run_check_eq_ok {r : Except Fault α} {a : α} :
    (check r).run m = .ok a m' ↔ r = .ok a ∧ m = m' := by
  cases r with
  | ok b => simp [check]
  | error fault =>
    constructor
    · intro h
      cases h
    · rintro ⟨h, -⟩
      cases h

theorem run_ask_eq_ok {look : Machine → Except Fault α} {a : α} :
    (ask look).run m = .ok a m' ↔ look m = .ok a ∧ m = m' := by
  rw [show (ask look).run m = (check (look m)).run m from rfl]
  exact run_check_eq_ok

theorem run_onFrames_eq_ok {change : Frames → Except Fault Frames} {u : Unit} :
    (onFrames change).run m = .ok u m' ↔
      ∃ frames, change m.frames = .ok frames ∧ { m with frames } = m' := by
  rw [onFrames, run_bind_eq_ok]
  constructor
  · rintro ⟨frames, m₁, h, h'⟩
    obtain ⟨hf, rfl⟩ := run_ask_eq_ok.1 h
    exact ⟨frames, hf, run_modify_eq_ok.1 h'⟩
  · rintro ⟨frames, h, rfl⟩
    exact ⟨frames, m, run_ask_eq_ok.2 ⟨h, rfl⟩, rfl⟩

theorem run_popCall_eq_ok {position : Nat} :
    popCall.run m = .ok position m' ↔
      ∃ calls, m.calls = position :: calls ∧ { m with calls } = m' := by
  rw [popCall, run_bind_eq_ok]
  constructor
  · rintro ⟨_, _, ⟨⟩, h⟩
    split at h
    · rename_i p calls hcalls
      cases h
      exact ⟨calls, hcalls, rfl⟩
    · cases h
  · rintro ⟨calls, hcalls, rfl⟩
    refine ⟨m, m, rfl, ?_⟩
    simp only [hcalls]
    rfl

theorem run_readLine_eq_ok {line : Option String} :
    readLine.run m = .ok line m' ↔
      ∃ input, m.input.takeLine = (input, .ok line) ∧ { m with input } = m' := by
  rw [show readLine.run m = (check (m.input.takeLine.2.mapError .readFailed)).run
    { m with input := m.input.takeLine.1 } from rfl, run_check_eq_ok, mapError_eq_ok]
  constructor
  · rintro ⟨h, rfl⟩
    exact ⟨m.input.takeLine.1, by rw [← h], rfl⟩
  · rintro ⟨input, h, rfl⟩
    rw [h]
    exact ⟨rfl, rfl⟩

theorem run_writeOutput_eq_ok {s : String} {u : Unit} :
    (writeOutput s).run m = .ok u m' ↔
      ∃ output, m.output.write s = .ok output ∧ { m with output } = m' := by
  simp only [writeOutput, run_bind_eq_ok, run_ask_eq_ok, mapError_eq_ok, run_modify_eq_ok]
  constructor
  · rintro ⟨output, _, ⟨h, rfl⟩, h'⟩
    exact ⟨output, h, h'⟩
  · rintro ⟨output, h, h'⟩
    exact ⟨output, m, ⟨h, rfl⟩, h'⟩

theorem run_writeDiagnostic_eq_ok {s : String} {u : Unit} :
    (writeDiagnostic s).run m = .ok u m' ↔
      ∃ diagnostic, m.diagnostic.write s = .ok diagnostic ∧ { m with diagnostic } = m' := by
  simp only [writeDiagnostic, run_bind_eq_ok, run_ask_eq_ok, mapError_eq_ok, run_modify_eq_ok]
  constructor
  · rintro ⟨diagnostic, _, ⟨h, rfl⟩, h'⟩
    exact ⟨diagnostic, h, h'⟩
  · rintro ⟨diagnostic, h, h'⟩
    exact ⟨diagnostic, m, ⟨h, rfl⟩, h'⟩

theorem branch_of_run {op : Opcode} {wanted : Bool} {label : String} {left right : Symbol}
    {flow : Flow} (h : (branch op wanted label left right).run m = .ok flow m') :
    ∃ position a b equal, m.target label = .ok position ∧ m.frames.eval left = .ok a ∧
      m.frames.eval right = .ok b ∧ equality op a b = .ok equal ∧
      flow = (if equal = wanted then .jump position else .next) ∧ m' = m := by
  simp only [branch, target, Action.equal, eval, run_bind_eq_ok, run_ask_eq_ok, run_check_eq_ok,
    run_pure_eq_ok] at h
  obtain ⟨position, _, ⟨hp, rfl⟩, equal, _, hequal, rfl, rfl⟩ := h
  obtain ⟨a, _, ⟨ha, rfl⟩, b, _, ⟨hb, rfl⟩, he, rfl⟩ := hequal
  exact ⟨position, a, b, equal, hp, ha, hb, he, rfl, rfl⟩

/-! ## Making actions succeed -/

variable {m₁ : Machine}

theorem run_bind_of_ok {x : Action α} {f : α → Action β} {a : α} {b : β}
    (hx : x.run m = .ok a m₁) (hf : (f a).run m₁ = .ok b m') : (x >>= f).run m = .ok b m' :=
  run_bind_eq_ok.2 ⟨a, m₁, hx, hf⟩

theorem run_check_of_ok {r : Except Fault α} {a : α} (h : r = .ok a) :
    (check r).run m = .ok a m :=
  run_check_eq_ok.2 ⟨h, rfl⟩

theorem run_ask_of_ok {look : Machine → Except Fault α} {a : α} (h : look m = .ok a) :
    (ask look).run m = .ok a m :=
  run_ask_eq_ok.2 ⟨h, rfl⟩

theorem run_onFrames_of_ok {change : Frames → Except Fault Frames} {frames : Frames}
    (h : change m.frames = .ok frames) : (onFrames change).run m = .ok () { m with frames } :=
  run_onFrames_eq_ok.2 ⟨frames, h, rfl⟩

theorem run_branch_of_ok {op : Opcode} {wanted : Bool} {label : String} {left right : Symbol}
    {position : Nat} {a b : Value} {equal : Bool} (hp : m.target label = .ok position)
    (ha : m.frames.eval left = .ok a) (hb : m.frames.eval right = .ok b)
    (he : equality op a b = .ok equal) :
    (branch op wanted label left right).run m =
      .ok (if equal = wanted then .jump position else .next) m := by
  have hequal : (Action.equal op left right).run m = .ok equal m :=
    run_bind_of_ok (run_ask_of_ok ha) (run_bind_of_ok (run_ask_of_ok hb) (run_check_of_ok he))
  exact run_bind_of_ok (run_ask_of_ok hp) (run_bind_of_ok hequal rfl)

/-! ## Making actions fail -/

theorem run_bind_of_error {x : Action α} {f : α → Action β} {e : RuntimeError}
    (h : x.run m = .error e m₁) : (x >>= f).run m = .error e m₁ := by
  rw [EStateM.run_bind, h]

theorem run_bind_of_ok_error {x : Action α} {f : α → Action β} {a : α} {m₂ : Machine}
    {e : RuntimeError} (hx : x.run m = .ok a m₁) (hf : (f a).run m₁ = .error e m₂) :
    (x >>= f).run m = .error e m₂ := by
  rw [EStateM.run_bind, hx]
  exact hf

theorem run_check_of_error {r : Except Fault α} {fault : Fault} (h : r = .error fault) :
    (check r).run m = .error (m.errorHere fault) m := by
  rw [h]
  rfl

theorem run_ask_of_error {look : Machine → Except Fault α} {fault : Fault}
    (h : look m = .error fault) : (ask look).run m = .error (m.errorHere fault) m :=
  run_check_of_error h

theorem run_popCall_of_nil (h : m.calls = []) :
    popCall.run m = .error (m.errorHere .emptyCallStack) m := by
  simp only [popCall, EStateM.run_bind, EStateM.run_get, h]
  rfl

theorem run_writeOutput_of_error {s reason : String} (h : m.output.write s = .error reason) :
    (writeOutput s).run m = .error (m.errorHere (.writeFailed reason)) m :=
  run_bind_of_error (run_ask_of_error (by rw [h]; rfl))

theorem run_writeDiagnostic_of_error {s reason : String}
    (h : m.diagnostic.write s = .error reason) :
    (writeDiagnostic s).run m = .error (m.errorHere (.writeFailed reason)) m :=
  run_bind_of_error (run_ask_of_error (by rw [h]; rfl))

end ThreeAddress.Action

namespace ThreeAddress.Machine

open ThreeAddress.Action

/-! ## The rules -/

/-- The instruction can take the machine `m` to `m'`, and control goes on as the flow says. -/
inductive Effect (m : Machine) : Instruction → Flow → Machine → Prop
  | move {dst src a frames} : m.frames.eval src = .ok a → m.frames.set dst a = .ok frames →
      Effect m (.move dst src) .next { m with frames }
  | createFrame : Effect m .createFrame .next { m with frames := m.frames.create }
  | pushFrame {frames} : m.frames.push = .ok frames → Effect m .pushFrame .next { m with frames }
  | popFrame {frames} : m.frames.pop = .ok frames → Effect m .popFrame .next { m with frames }
  | defVar {v frames} : m.frames.declare v = .ok frames →
      Effect m (.defVar v) .next { m with frames }
  | call {label position} : m.target label = .ok position →
      Effect m (.call label) (.jump position) { m with calls := (m.pc + 1) :: m.calls }
  | ret {position calls} : m.calls = position :: calls →
      Effect m .ret (.jump position) { m with calls }
  | pushs {src a} : m.frames.eval src = .ok a →
      Effect m (.pushs src) .next { m with data := a :: m.data }
  | pops {dst a data frames} : m.data = a :: data → m.frames.set dst a = .ok frames →
      Effect m (.pops dst) .next { m with data, frames }
  | unary {op dst src a b frames} : m.frames.eval src = .ok a → UnaryOp.apply op a = .ok b →
      m.frames.set dst b = .ok frames → Effect m (.unary op dst src) .next { m with frames }
  | binary {op dst left right a b c frames} : m.frames.eval left = .ok a →
      m.frames.eval right = .ok b → BinaryOp.apply op a b = .ok c →
      m.frames.set dst c = .ok frames →
      Effect m (.binary op dst left right) .next { m with frames }
  | read {dst k input line frames} : m.input.takeLine = (input, .ok line) →
      m.frames.set dst (Value.ofLine k line) = .ok frames →
      Effect m (.read dst k) .next { m with input, frames }
  | write {src a output} : m.frames.eval src = .ok a → m.output.write a.printed = .ok output →
      Effect m (.write src) .next { m with output }
  | setChar {dst index replacement s i r a frames} : m.frames.valueOf dst = .ok s →
      m.frames.eval index = .ok i → m.frames.eval replacement = .ok r →
      replaceChar s i r = .ok a → m.frames.set dst a = .ok frames →
      Effect m (.setChar dst index replacement) .next { m with frames }
  | type {dst src a frames} : m.frames.look src = .ok a →
      m.frames.set dst (typeText a) = .ok frames →
      Effect m (.type dst src) .next { m with frames }
  | label {name} : Effect m (.label name) .next m
  | jump {label position} : m.target label = .ok position →
      Effect m (.jump label) (.jump position) m
  | jumpIfEq {label left right position a b equal} : m.target label = .ok position →
      m.frames.eval left = .ok a → m.frames.eval right = .ok b →
      equality .jumpIfEq a b = .ok equal →
      Effect m (.jumpIfEq label left right) (if equal then .jump position else .next) m
  | jumpIfNeq {label left right position a b equal} : m.target label = .ok position →
      m.frames.eval left = .ok a → m.frames.eval right = .ok b →
      equality .jumpIfNeq a b = .ok equal →
      Effect m (.jumpIfNeq label left right) (if equal then .next else .jump position) m
  | exit {src a code} : m.frames.eval src = .ok a → exitCode a = .ok code →
      Effect m (.exit src) (.exit code) m
  | dprint {src a diagnostic} : m.frames.eval src = .ok a →
      m.diagnostic.write (a.printed ++ "\n") = .ok diagnostic →
      Effect m (.dprint src) .next { m with diagnostic }
  | brk {diagnostic} : m.diagnostic.write m.snapshot = .ok diagnostic →
      Effect m .brk .next { m with diagnostic }

theorem effect_of_step {i : Instruction} {flow : Flow} {m m' : Machine}
    (h : (step i).run m = .ok flow m') : Effect m i flow m' := by
  -- A run is taken apart at its binds, and what is left are the premises of the rule.
  cases i with
  | move dst src =>
    simp only [step, eval, Action.set, run_bind_eq_ok, run_ask_eq_ok, run_onFrames_eq_ok,
      run_pure_eq_ok] at h
    obtain ⟨a, _, ⟨ha, rfl⟩, _, _, ⟨frames, hf, rfl⟩, rfl, rfl⟩ := h
    exact .move ha hf
  | createFrame =>
    cases h
    exact .createFrame
  | pushFrame =>
    simp only [step, Action.pushFrame, run_bind_eq_ok, run_onFrames_eq_ok, run_pure_eq_ok] at h
    obtain ⟨_, _, ⟨frames, hf, rfl⟩, rfl, rfl⟩ := h
    exact .pushFrame hf
  | popFrame =>
    simp only [step, Action.popFrame, run_bind_eq_ok, run_onFrames_eq_ok, run_pure_eq_ok] at h
    obtain ⟨_, _, ⟨frames, hf, rfl⟩, rfl, rfl⟩ := h
    exact .popFrame hf
  | defVar v =>
    simp only [step, Action.declare, run_bind_eq_ok, run_onFrames_eq_ok, run_pure_eq_ok] at h
    obtain ⟨_, _, ⟨frames, hf, rfl⟩, rfl, rfl⟩ := h
    exact .defVar hf
  | call label =>
    simp only [step, Action.target, pushCall, run_bind_eq_ok, run_ask_eq_ok, run_modify_eq_ok,
      run_pure_eq_ok] at h
    obtain ⟨position, _, ⟨hp, rfl⟩, _, _, rfl, rfl, rfl⟩ := h
    exact .call hp
  | ret =>
    simp only [step, run_bind_eq_ok, run_popCall_eq_ok, run_pure_eq_ok] at h
    obtain ⟨position, _, ⟨calls, hcalls, rfl⟩, rfl, rfl⟩ := h
    exact .ret hcalls
  | pushs src =>
    simp only [step, eval, pushData, run_bind_eq_ok, run_ask_eq_ok, run_modify_eq_ok,
      run_pure_eq_ok] at h
    obtain ⟨a, _, ⟨ha, rfl⟩, _, _, rfl, rfl, rfl⟩ := h
    exact .pushs ha
  | pops dst =>
    simp only [step, topData, Action.set, dropData, run_bind_eq_ok, run_ask_eq_ok,
      run_onFrames_eq_ok, run_modify_eq_ok, run_pure_eq_ok] at h
    obtain ⟨a, _, ⟨ha, rfl⟩, _, _, ⟨frames, hf, rfl⟩, _, _, rfl, rfl, rfl⟩ := h
    split at ha
    · rename_i b data hdata
      cases ha
      have heffect := Effect.pops hdata hf
      rwa [← show m.data.tail = data by rw [hdata]; rfl] at heffect
    · cases ha
  | unary op dst src =>
    simp only [step, eval, Action.set, run_bind_eq_ok, run_ask_eq_ok, run_check_eq_ok,
      run_onFrames_eq_ok, run_pure_eq_ok] at h
    obtain ⟨a, _, ⟨ha, rfl⟩, b, _, ⟨hb, rfl⟩, _, _, ⟨frames, hf, rfl⟩, rfl, rfl⟩ := h
    exact .unary ha hb hf
  | binary op dst left right =>
    simp only [step, eval, Action.set, run_bind_eq_ok, run_ask_eq_ok, run_check_eq_ok,
      run_onFrames_eq_ok, run_pure_eq_ok] at h
    obtain ⟨a, _, ⟨ha, rfl⟩, b, _, ⟨hb, rfl⟩, c, _, ⟨hc, rfl⟩, _, _, hset, rfl, rfl⟩ := h
    obtain ⟨frames, hf, rfl⟩ := hset
    exact .binary ha hb hc hf
  | read dst k =>
    simp only [step, Action.set, run_bind_eq_ok, run_readLine_eq_ok, run_onFrames_eq_ok,
      run_pure_eq_ok] at h
    obtain ⟨line, _, ⟨input, hline, rfl⟩, _, _, ⟨frames, hf, rfl⟩, rfl, rfl⟩ := h
    exact .read hline hf
  | write src =>
    simp only [step, eval, run_bind_eq_ok, run_ask_eq_ok, run_writeOutput_eq_ok,
      run_pure_eq_ok] at h
    obtain ⟨a, _, ⟨ha, rfl⟩, _, _, ⟨output, hw, rfl⟩, rfl, rfl⟩ := h
    exact .write ha hw
  | setChar dst index replacement =>
    simp only [step, eval, Action.valueOf, Action.set, run_bind_eq_ok, run_ask_eq_ok,
      run_check_eq_ok, run_onFrames_eq_ok, run_pure_eq_ok] at h
    obtain ⟨s, _, ⟨hs, rfl⟩, n, _, ⟨hn, rfl⟩, r, _, ⟨hr, rfl⟩, a, _, ⟨ha, rfl⟩, _, _,
      ⟨frames, hf, rfl⟩, rfl, rfl⟩ := h
    exact .setChar hs hn hr ha hf
  | type dst src =>
    simp only [step, Action.look, Action.set, run_bind_eq_ok, run_ask_eq_ok, run_onFrames_eq_ok,
      run_pure_eq_ok] at h
    obtain ⟨a, _, ⟨ha, rfl⟩, _, _, ⟨frames, hf, rfl⟩, rfl, rfl⟩ := h
    exact .type ha hf
  | label name =>
    cases h
    exact .label
  | jump label =>
    simp only [step, Action.target, run_bind_eq_ok, run_ask_eq_ok, run_pure_eq_ok] at h
    obtain ⟨position, _, ⟨hp, rfl⟩, rfl, rfl⟩ := h
    exact .jump hp
  | jumpIfEq label left right =>
    obtain ⟨position, a, b, equal, hp, ha, hb, he, rfl, rfl⟩ := branch_of_run h
    exact .jumpIfEq hp ha hb he
  | jumpIfNeq label left right =>
    obtain ⟨position, a, b, equal, hp, ha, hb, he, rfl, rfl⟩ := branch_of_run h
    have heffect := Effect.jumpIfNeq hp ha hb he
    cases equal <;> exact heffect
  | exit code =>
    simp only [step, eval, run_bind_eq_ok, run_ask_eq_ok, run_check_eq_ok, run_pure_eq_ok] at h
    obtain ⟨a, _, ⟨ha, rfl⟩, n, _, ⟨hn, rfl⟩, rfl, rfl⟩ := h
    exact .exit ha hn
  | dprint src =>
    simp only [step, eval, run_bind_eq_ok, run_ask_eq_ok, run_writeDiagnostic_eq_ok,
      run_pure_eq_ok] at h
    obtain ⟨a, _, ⟨ha, rfl⟩, _, _, ⟨diagnostic, hw, rfl⟩, rfl, rfl⟩ := h
    exact .dprint ha hw
  | brk =>
    simp only [step, run_bind_eq_ok, run_writeDiagnostic_eq_ok, run_pure_eq_ok] at h
    obtain ⟨_, _, ⟨⟩, _, _, ⟨diagnostic, hw, rfl⟩, rfl, rfl⟩ := h
    exact .brk hw

theorem step_of_effect {i : Instruction} {flow : Flow} {m m' : Machine}
    (h : Effect m i flow m') : (step i).run m = .ok flow m' := by
  cases h with
  | move ha hf | type ha hf =>
    exact run_bind_of_ok (run_ask_of_ok ha) (run_bind_of_ok (run_onFrames_of_ok hf) rfl)
  | createFrame | label => rfl
  | pushFrame hf | popFrame hf | defVar hf => exact run_bind_of_ok (run_onFrames_of_ok hf) rfl
  | call hp => exact run_bind_of_ok (run_ask_of_ok hp) rfl
  | ret hcalls => exact run_bind_of_ok (run_popCall_eq_ok.2 ⟨_, hcalls, rfl⟩) rfl
  | pushs ha => exact run_bind_of_ok (run_ask_of_ok ha) rfl
  | pops hdata hf =>
    have htop : topData.run m = .ok _ m := run_ask_of_ok (by rw [hdata])
    refine run_bind_of_ok htop (run_bind_of_ok (run_onFrames_of_ok hf) ?_)
    rw [hdata]
    rfl
  | unary ha hb hf =>
    exact run_bind_of_ok (run_ask_of_ok ha) (run_bind_of_ok (run_check_of_ok hb)
      (run_bind_of_ok (run_onFrames_of_ok hf) rfl))
  | binary ha hb hc hf =>
    exact run_bind_of_ok (run_ask_of_ok ha) (run_bind_of_ok (run_ask_of_ok hb)
      (run_bind_of_ok (run_check_of_ok hc) (run_bind_of_ok (run_onFrames_of_ok hf) rfl)))
  | read hline hf =>
    exact run_bind_of_ok (run_readLine_eq_ok.2 ⟨_, hline, rfl⟩)
      (run_bind_of_ok (run_onFrames_of_ok hf) rfl)
  | write ha hw =>
    exact run_bind_of_ok (run_ask_of_ok ha)
      (run_bind_of_ok (a := ()) (run_writeOutput_eq_ok.2 ⟨_, hw, rfl⟩) rfl)
  | setChar hs hn hr ha hf =>
    exact run_bind_of_ok (run_ask_of_ok hs) (run_bind_of_ok (run_ask_of_ok hn)
      (run_bind_of_ok (run_ask_of_ok hr) (run_bind_of_ok (run_check_of_ok ha)
        (run_bind_of_ok (run_onFrames_of_ok hf) rfl))))
  | jump hp => exact run_bind_of_ok (run_ask_of_ok hp) rfl
  | jumpIfEq hp ha hb he => exact run_branch_of_ok hp ha hb he
  | @jumpIfNeq _ _ _ _ _ _ equal hp ha hb he =>
    have hbranch : (branch .jumpIfNeq false _ _ _).run m = _ := run_branch_of_ok hp ha hb he
    cases equal <;> exact hbranch
  | exit ha hn => exact run_bind_of_ok (run_ask_of_ok ha) (run_bind_of_ok (run_check_of_ok hn) rfl)
  | dprint ha hw =>
    exact run_bind_of_ok (run_ask_of_ok ha)
      (run_bind_of_ok (a := ()) (run_writeDiagnostic_eq_ok.2 ⟨_, hw, rfl⟩) rfl)
  | brk hw =>
    exact run_bind_of_ok rfl
      (run_bind_of_ok (a := ()) (run_writeDiagnostic_eq_ok.2 ⟨_, hw, rfl⟩) rfl)

end ThreeAddress.Machine
