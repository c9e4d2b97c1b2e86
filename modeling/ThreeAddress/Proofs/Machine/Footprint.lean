import ThreeAddress.Proofs.Machine.Execution
import ThreeAddress.Proofs.Machine.Session

/-!
# What an instruction leaves alone

`Footprint` says which places in the frames and which other parts of a machine an instruction may
change.
-/

namespace ThreeAddress

/-! ## Places -/

/-- A name in one of the frames. Local frames are counted from the top. -/
inductive Place where
  | global (name : String)
  | local (depth : Nat) (name : String)
  | temporary (name : String)
deriving DecidableEq

/-- Where the value of a variable is kept. Only the top local frame can be named. -/
def Variable.place (v : Variable) : Place :=
  match v.frame with
  | .global => .global v.name
  | .local => .local 0 v.name
  | .temporary => .temporary v.name

/-- The variable that takes the result of an instruction. -/
def Instruction.destination? : Instruction → Option Variable
  | .move dst _ | .pops dst | .unary _ dst _ | .binary _ dst _ _ | .read dst _ | .setChar dst _ _
  | .type dst _ => some dst
  | _ => none

namespace Frames

/-- The slot at a place, if the frame exists and declares the name. -/
def at? (fs : Frames) : Place → Option (Option Value)
  | .global name => fs.global.get? name
  | .local depth name => fs.locals[depth]?.bind (·.get? name)
  | .temporary name => fs.temporary.bind (·.get? name)

/-- The same frames exist. -/
structure SameFrames (fs fs' : Frames) : Prop where
  locals : fs'.locals.length = fs.locals.length
  temporary : fs'.temporary.isSome = fs.temporary.isSome

/-- They declare the same names, too. -/
structure SameNames (fs fs' : Frames) : Prop extends SameFrames fs fs' where
  names : ∀ q, (fs'.at? q).isSome = (fs.at? q).isSome

/-- Nothing but one place is changed, and the given slot is there now. -/
structure ChangedAt (fs : Frames) (q : Place) (slot : Option Value) (fs' : Frames) : Prop
    extends SameFrames fs fs' where
  here : fs'.at? q = some slot
  elsewhere : ∀ q', q' ≠ q → fs'.at? q' = fs.at? q'

variable {fs fs' : Frames} {v : Variable} {f : Frame} {q : Place} {slot : Option Value}

theorem sameNames_refl (fs : Frames) : fs.SameNames fs := ⟨⟨rfl, rfl⟩, fun _ => rfl⟩

theorem ChangedAt.sameNames (h : fs.ChangedAt q slot fs') (hq : (fs.at? q).isSome = true) :
    fs.SameNames fs' := by
  refine ⟨h.toSameFrames, fun q' => ?_⟩
  by_cases heq : q' = q
  · rw [heq, h.here, hq]
    rfl
  · rw [h.elsewhere q' heq]

theorem get_eq_ok_iff {name : FrameName} : fs.get name = .ok f ↔ fs.get? name = some f := by
  unfold get
  split <;> simp_all

theorem at?_place_eq (fs : Frames) (v : Variable) :
    fs.at? v.place = (fs.get? v.frame).bind (·.get? v.name) := by
  obtain ⟨frame, name⟩ := v
  cases frame <;> simp [get?, Variable.place, at?, List.head?_eq_getElem?]

theorem at?_place (h : fs.get v.frame = .ok f) : fs.at? v.place = f.get? v.name := by
  rw [at?_place_eq, get_eq_ok_iff.1 h, Option.bind_some]

theorem changedAt_replace (h : fs.get v.frame = .ok f) (slot : Option Value) :
    fs.ChangedAt v.place slot (fs.replace v.frame (f.insert v.name slot)) := by
  obtain ⟨frame, name⟩ := v
  rw [get_eq_ok_iff] at h
  cases frame with
  | global =>
    cases h
    refine ⟨⟨rfl, rfl⟩, by simp [Variable.place, replace, at?], fun q' hne => ?_⟩
    cases q' with
    | global x => simp_all [Variable.place, replace, at?]
    | _ => rfl
  | «local» =>
    obtain ⟨rest, hl⟩ := List.head?_eq_some_iff.1 h
    refine ⟨⟨by simp [replace, hl], by simp [replace, hl]⟩,
      by simp [Variable.place, replace, at?, hl], fun q' hne => ?_⟩
    cases q' with
    | «local» depth x =>
      -- Only the top frame is another one, and only one name in it.
      cases depth <;> simp_all [Variable.place, replace, at?]
    | _ => simp [replace, at?, hl]
  | temporary =>
    have ht : fs.temporary = some f := h
    refine ⟨⟨by simp [replace], by simp [replace, ht]⟩, by simp [Variable.place, replace, at?],
      fun q' hne => ?_⟩
    cases q' with
    | temporary x => simp_all [Variable.place, replace, at?]
    | _ => simp [replace, at?]

theorem changedAt_of_set {a : Value} (h : fs.set v a = .ok fs') :
    (fs.at? v.place).isSome = true ∧ fs.ChangedAt v.place (some a) fs' := by
  obtain ⟨f, hf, h⟩ := bind_eq_ok.1 h
  split at h
  · rename_i hdeclared
    cases h
    rw [at?_place hf]
    exact ⟨hdeclared, changedAt_replace hf _⟩
  · cases h

theorem set_of_declared (h : fs.at? v.place ≠ none) (a : Value) :
    ∃ fs', fs.set v a = .ok fs' ∧ fs.ChangedAt v.place (some a) fs' := by
  rw [at?_place_eq, Option.ne_none_iff_exists'] at h
  obtain ⟨slot, hslot⟩ := h
  obtain ⟨f, hf, hslot⟩ := Option.bind_eq_some_iff.1 hslot
  have hset : fs.set v a = .ok (fs.replace v.frame (f.insert v.name (some a))) := by
    simp [set, get, hf, bind, Except.bind, Table.contains, hslot]
  exact ⟨_, hset, changedAt_replace (get_eq_ok_iff.2 hf) _⟩

/-- Why a variable that is not declared takes no value. -/
def refusal (fs : Frames) (v : Variable) : Fault :=
  match fs.get? v.frame with
  | none => .frameNotFound v.frame
  | some _ => .undeclaredVariable v

theorem set_of_undeclared (h : fs.at? v.place = none) (a : Value) :
    fs.set v a = .error (fs.refusal v) := by
  unfold refusal
  cases hf : fs.get? v.frame with
  | none => simp [set, get, hf, bind, Except.bind]
  | some f =>
    rw [at?_place_eq, hf, Option.bind_some] at h
    simp [set, get, hf, bind, Except.bind, Table.contains, h]

theorem changedAt_of_declare (h : fs.declare v = .ok fs') :
    fs.at? v.place = none ∧ fs.ChangedAt v.place none fs' := by
  obtain ⟨f, hf, h⟩ := bind_eq_ok.1 h
  split at h
  · cases h
  · rename_i hnew
    cases h
    rw [at?_place hf]
    exact ⟨by simpa [Table.contains] using hnew, changedAt_replace hf _⟩

theorem global_of_push (h : fs.push = .ok fs') : fs'.global = fs.global := by
  unfold push at h
  split at h <;> cases h
  rfl

theorem global_of_pop (h : fs.pop = .ok fs') : fs'.global = fs.global := by
  unfold pop at h
  split at h <;> cases h
  rfl

end Frames

/-! ## One instruction -/

namespace Machine

open ThreeAddress.Action

/-- What an instruction may have changed where it succeeded. Each field says which instructions
alone can change some part of the machine, or what one of them does to it. -/
structure Footprint (m : Machine) (i : Instruction) (m' : Machine) : Prop where
  code : m'.code = m.code
  labels : m'.labels = m.labels
  names : i.opcode ∉ [.createFrame, .pushFrame, .popFrame, .defVar] → m.frames.SameNames m'.frames
  moves : i.opcode ∈ [.createFrame, .pushFrame, .popFrame] → m'.frames.global = m.frames.global
  declares : ∀ v, i = .defVar v →
    m.frames.at? v.place = none ∧ m.frames.ChangedAt v.place none m'.frames
  stores : ∀ v, i.destination? = some v →
    (m.frames.at? v.place).isSome = true ∧ ∃ a, m.frames.ChangedAt v.place (some a) m'.frames
  frames : i.opcode ∉ [.createFrame, .pushFrame, .popFrame, .defVar] → i.destination? = none →
    m'.frames = m.frames
  data : i.opcode ∉ [.pushs, .pops] → m'.data = m.data
  calls : i.opcode ∉ [.call, .ret] → m'.calls = m.calls
  input : i.opcode ≠ .read → m'.input = m.input
  output : i.opcode ≠ .write → m'.output = m.output
  diagnostic : i.opcode ∉ [.dprint, .brk] → m'.diagnostic = m.diagnostic

variable {m m' : Machine} {i : Instruction} {flow : Flow}

theorem Effect.stores {v : Variable} (h : Effect m i flow m') (hv : i.destination? = some v) :
    ∃ a, m.frames.set v a = .ok m'.frames := by
  cases h with
  | move _ hf | pops _ hf | unary _ _ hf | binary _ _ _ hf | read _ hf | setChar _ _ _ _ hf
  | type _ hf =>
    cases hv
    exact ⟨_, hf⟩
  | _ => cases hv

theorem Effect.keeps_frames (h : Effect m i flow m')
    (hop : i.opcode ∉ [.createFrame, .pushFrame, .popFrame, .defVar])
    (hdst : i.destination? = none) : m'.frames = m.frames := by
  cases h with
  | createFrame | pushFrame | popFrame | defVar => simp [Instruction.opcode] at hop
  | move | pops | unary | binary | read | setChar | type => cases hdst
  | _ => rfl

theorem Effect.keeps_global (h : Effect m i flow m')
    (hop : i.opcode ∈ [.createFrame, .pushFrame, .popFrame]) :
    m'.frames.global = m.frames.global := by
  cases h with
  | createFrame => rfl
  | pushFrame hf => exact Frames.global_of_push hf
  | popFrame hf => exact Frames.global_of_pop hf
  | @unary op | @binary op =>
    cases op <;> simp [Instruction.opcode, UnaryOp.opcode, BinaryOp.opcode] at hop
  | _ => simp [Instruction.opcode] at hop

theorem Effect.keeps_data (h : Effect m i flow m') (hop : i.opcode ∉ [.pushs, .pops]) :
    m'.data = m.data := by
  cases h with
  | pushs | pops => simp [Instruction.opcode] at hop
  | _ => rfl

theorem Effect.keeps_calls (h : Effect m i flow m') (hop : i.opcode ∉ [.call, .ret]) :
    m'.calls = m.calls := by
  cases h with
  | call | ret => simp [Instruction.opcode] at hop
  | _ => rfl

theorem Effect.keeps_input (h : Effect m i flow m') (hop : i.opcode ≠ .read) :
    m'.input = m.input := by
  cases h with
  | read => exact absurd rfl hop
  | _ => rfl

theorem Effect.keeps_output (h : Effect m i flow m') (hop : i.opcode ≠ .write) :
    m'.output = m.output := by
  cases h with
  | write => exact absurd rfl hop
  | _ => rfl

theorem Effect.keeps_diagnostic (h : Effect m i flow m') (hop : i.opcode ∉ [.dprint, .brk]) :
    m'.diagnostic = m.diagnostic := by
  cases h with
  | dprint | brk => simp [Instruction.opcode] at hop
  | _ => rfl

theorem Effect.footprint (h : Effect m i flow m') : Footprint m i m' where
  code := h.keeps_code.1
  labels := h.keeps_code.2.1
  names hop := by
    cases hdst : i.destination? with
    | none =>
      rw [h.keeps_frames hop hdst]
      exact Frames.sameNames_refl _
    | some v =>
      obtain ⟨a, ha⟩ := h.stores hdst
      obtain ⟨hdeclared, hchanged⟩ := Frames.changedAt_of_set ha
      exact hchanged.sameNames hdeclared
  moves := h.keeps_global
  declares v hi := by
    subst hi
    cases h with
    | defVar hf => exact Frames.changedAt_of_declare hf
  stores v hdst := by
    obtain ⟨a, ha⟩ := h.stores hdst
    obtain ⟨hdeclared, hchanged⟩ := Frames.changedAt_of_set ha
    exact ⟨hdeclared, a, hchanged⟩
  frames := h.keeps_frames
  data := h.keeps_data
  calls := h.keeps_calls
  input := h.keeps_input
  output := h.keeps_output
  diagnostic := h.keeps_diagnostic

/-! ## Global variables over a run -/

/-- What the first frame declares is declared in the second one, and what has a value there has one
here. -/
def Grows (f f' : Frame) : Prop :=
  ∀ x, ((f.get? x).isSome = true → (f'.get? x).isSome = true) ∧
    ((f.get? x).join.isSome = true → (f'.get? x).join.isSome = true)

theorem grows_refl (f : Frame) : Grows f f := fun _ => ⟨id, id⟩

theorem Grows.trans {f g h : Frame} (hfg : Grows f g) (hgh : Grows g h) : Grows f h := fun x =>
  ⟨fun hf => (hgh x).1 ((hfg x).1 hf), fun hf => (hgh x).2 ((hfg x).2 hf)⟩

theorem grows_of_changedAt {fs fs' : Frames} {q : Place} {slot : Option Value}
    (h : fs.ChangedAt q slot fs') (hq : fs.at? q = none ∨ slot.isSome = true) :
    Grows fs.global fs'.global := by
  intro x
  change ((fs.at? (.global x)).isSome = true → (fs'.at? (.global x)).isSome = true) ∧
    ((fs.at? (.global x)).join.isSome = true → (fs'.at? (.global x)).join.isSome = true)
  by_cases hx : .global x = q
  · rw [hx, h.here]
    rcases hq with hq | hq <;> simp [hq]
  · rw [h.elsewhere _ hx]
    exact ⟨id, id⟩

theorem Footprint.grows (h : Footprint m i m') : Grows m.frames.global m'.frames.global := by
  cases i with
  | createFrame | pushFrame | popFrame =>
    rw [h.moves (by simp [Instruction.opcode])]
    exact grows_refl _
  | defVar v =>
    obtain ⟨hnew, hchanged⟩ := h.declares v rfl
    exact grows_of_changedAt hchanged (.inl hnew)
  | move | pops | unary | binary | read | setChar | type =>
    obtain ⟨-, a, hchanged⟩ := h.stores _ rfl
    exact grows_of_changedAt hchanged (.inr rfl)
  | _ =>
    rw [h.frames (by simp [Instruction.opcode]) rfl]
    exact grows_refl _

theorem grows_advance (m : Machine) : Grows m.frames.global m.advance.1.frames.global := by
  rcases advance_cases m with ⟨-, hend⟩ | ⟨i, flow, m', -, heffect, hok⟩ | ⟨e, input, hfail⟩
  · rw [hend]
    exact grows_refl _
  · rw [hok, follow_frames]
    exact heffect.footprint.grows
  · rw [hfail]
    exact grows_refl _

theorem grows_state (m : Machine) {k n : Nat} (hle : k ≤ n) :
    Grows (m.state k).frames.global (m.state n).frames.global := by
  induction hle with
  | refl => exact grows_refl _
  | @step n _ ih =>
    apply ih.trans
    by_cases hrun : (m.execute n).2 = .running
    · rw [state_succ_of_running hrun]
      exact grows_advance _
    · rw [state_succ_of_stopped hrun]
      exact grows_refl _

theorem step_footprint :
    (∀ i flow m m', (step i).run m = .ok flow m' → Footprint m i m') ∧
    ∀ (m : Machine) (k n : Nat) (x : String), k ≤ n →
      (((m.state k).frames.at? (.global x)).isSome = true →
        ((m.state n).frames.at? (.global x)).isSome = true) ∧
      (((m.state k).frames.at? (.global x)).join.isSome = true →
        ((m.state n).frames.at? (.global x)).join.isSome = true) := by
  refine ⟨fun i flow m m' hstep => (effect_of_step hstep).footprint, fun m k n x hle => ?_⟩
  exact grows_state m hle x

/-- Two local frames declare `x`, and only the upper one can be named. -/
def sameNameBelow : Machine :=
  let x : Variable := { frame := .local, name := "x" }
  let y : Variable := { frame := .global, name := "y" }
  { fresh (.ofBytes []) .unlimited .unlimited with
    code := #[.move x (.const (.int 2)), .defVar y, .move y (.var x), .popFrame]
    frames := {
      global := .empty
      locals := [Table.empty.insert "x" none, Table.empty.insert "x" (some (.int 1))]
      temporary := none } }

theorem sameNameBelow_footprint :
    let set : Instruction := .move { frame := .local, name := "x" } (.const (.int 2))
    let m' := { sameNameBelow with
      frames.locals :=
        [Table.empty.insert "x" (some (.int 2)), Table.empty.insert "x" (some (.int 1))] }
    (step set).run sameNameBelow = .ok .next m' ∧ Footprint sameNameBelow set m' ∧
      ((sameNameBelow.state 3).frames.at? (.global "y")).join.isSome = true ∧
      ((sameNameBelow.state 4).frames.at? (.global "y")).join.isSome = true := by
  intro set m'
  have hstep : (step set).run sameNameBelow = .ok .next m' := rfl
  have hset : ((sameNameBelow.state 3).frames.at? (.global "y")).join.isSome = true := by decide
  have hstays := (step_footprint.2 sameNameBelow 3 4 "y" (by decide)).2 hset
  exact ⟨hstep, step_footprint.1 _ _ _ _ hstep, hset, hstays⟩

end Machine

end ThreeAddress
