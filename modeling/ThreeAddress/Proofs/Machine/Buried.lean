import Mathlib.Data.List.DropRight
import ThreeAddress.Proofs.Machine.Execution

/-!
# What lies buried in the stacks

`onTop` puts a machine on top of other stacks. The frame rule says that running and `onTop` commute
as long as the run stays above.
-/

namespace ThreeAddress

/-! ## Frames with others below them -/

namespace Frames

/-- The frames with others below the local ones. -/
def onTop (fs : Frames) (below : List Frame) : Frames := { fs with locals := fs.locals ++ below }

variable {fs : Frames} {below : List Frame}

theorem get?_onTop (h : fs.locals ≠ []) (name : FrameName) :
    (fs.onTop below).get? name = fs.get? name := by
  obtain ⟨top, rest, hl⟩ := List.exists_cons_of_ne_nil h
  cases name <;> simp [get?, onTop, hl]

theorem replace_onTop (h : fs.locals ≠ []) (name : FrameName) (f : Frame) :
    (fs.onTop below).replace name f = (fs.replace name f).onTop below := by
  obtain ⟨top, rest, hl⟩ := List.exists_cons_of_ne_nil h
  cases name <;> simp [replace, onTop, hl]

theorem get_onTop (h : fs.locals ≠ []) (name : FrameName) :
    (fs.onTop below).get name = fs.get name := by
  unfold get
  rw [get?_onTop h]

theorem slot_onTop (h : fs.locals ≠ []) (v : Variable) : (fs.onTop below).slot v = fs.slot v := by
  unfold slot
  rw [get_onTop h]

/-! ## Looking and changing above -/

/-- A look at the frames that does not see what lies below them. -/
def SeesAbove {α : Type} (fs : Frames) (look : Frames → Except Fault α) : Prop :=
  ∀ below, look (fs.onTop below) = look fs

theorem SeesAbove.of_ok {α : Type} {look : Frames → Except Fault α} {a : α}
    (hl : fs.SeesAbove look) (h : look (fs.onTop below) = .ok a) (other : List Frame) :
    look (fs.onTop other) = .ok a := by
  rw [hl other, ← hl below, h]

theorem seesAbove_valueOf (h : fs.locals ≠ []) (v : Variable) : fs.SeesAbove (·.valueOf v) := by
  intro below
  simp only [valueOf, slot_onTop h]

theorem seesAbove_look (h : fs.locals ≠ []) (s : Symbol) : fs.SeesAbove (·.look s) := by
  intro below
  cases s with
  | const c => rfl
  | var v => exact slot_onTop h v

theorem seesAbove_eval (h : fs.locals ≠ []) (s : Symbol) : fs.SeesAbove (·.eval s) := by
  intro below
  cases s with
  | const c => rfl
  | var v => exact seesAbove_valueOf h v below

/-- A change of the frames that does nothing to what lies below them. -/
def StaysAbove (fs : Frames) (change : Frames → Except Fault Frames) : Prop :=
  ∀ below, change (fs.onTop below) = (change fs).map (·.onTop below)

theorem staysAbove_declare (h : fs.locals ≠ []) (v : Variable) :
    fs.StaysAbove (·.declare v) := by
  intro below
  simp only [declare, get_onTop h]
  cases fs.get v.frame with
  | error fault => rfl
  | ok f =>
    simp only [bind, Except.bind, replace_onTop h]
    split <;> rfl

theorem staysAbove_set (h : fs.locals ≠ []) (v : Variable) (a : Value) :
    fs.StaysAbove (·.set v a) := by
  intro below
  simp only [set, get_onTop h]
  cases fs.get v.frame with
  | error fault => rfl
  | ok f =>
    simp only [bind, Except.bind, replace_onTop h]
    split <;> rfl

theorem staysAbove_push : fs.StaysAbove push := by
  intro below
  unfold push onTop
  cases fs.temporary <;> rfl

theorem staysAbove_pop (h : fs.locals ≠ []) : fs.StaysAbove pop := by
  intro below
  obtain ⟨top, rest, hl⟩ := List.exists_cons_of_ne_nil h
  simp [pop, onTop, hl, Except.map]

theorem StaysAbove.of_ok {change : Frames → Except Fault Frames} {out : Frames}
    (hc : fs.StaysAbove change) (h : change (fs.onTop below) = .ok out) :
    ∃ fs' : Frames, out = fs'.onTop below ∧
      ∀ other, change (fs.onTop other) = .ok (fs'.onTop other) := by
  rw [hc below] at h
  obtain ⟨fs', hfs', rfl⟩ := map_eq_ok.1 h
  refine ⟨fs', rfl, fun other => ?_⟩
  rw [hc other, hfs']
  rfl

end Frames

/-! ## Machines on top of others' stacks -/

/-- What lies at the bottom of the three stacks, the top first. -/
structure Bottoms where
  locals : List Frame
  data : List Value
  calls : List Nat
deriving DecidableEq

structure Heights where
  locals : Nat
  data : Nat
  calls : Nat
deriving DecidableEq

def Bottoms.heights (b : Bottoms) : Heights :=
  { locals := b.locals.length, data := b.data.length, calls := b.calls.length }

namespace Machine

def onTop (m : Machine) (b : Bottoms) : Machine :=
  { m with frames := m.frames.onTop b.locals, data := m.data ++ b.data, calls := m.calls ++ b.calls }

/-- The machine without the lowest entries of its stacks. -/
def above (m : Machine) (h : Heights) : Machine :=
  { m with
    frames := { m.frames with locals := m.frames.locals.rdrop h.locals }
    data := m.data.rdrop h.data
    calls := m.calls.rdrop h.calls }

/-- The lowest entries of the stacks. -/
def bottoms (m : Machine) (h : Heights) : Bottoms :=
  { locals := m.frames.locals.rtake h.locals, data := m.data.rtake h.data
    calls := m.calls.rtake h.calls }

/-- The machine with other contents in the place of the lowest entries of its stacks. -/
def rebase (m : Machine) (h : Heights) (b : Bottoms) : Machine := (m.above h).onTop b

variable {t m' : Machine} {b : Bottoms} {h : Heights} {i : Instruction} {flow : Flow}

theorem rebase_bottoms (m : Machine) (h : Heights) : m.rebase h (m.bottoms h) = m := by
  simp [rebase, above, onTop, bottoms, Frames.onTop, List.rdrop, List.rtake]

theorem above_onTop (t : Machine) (b : Bottoms) : (t.onTop b).above b.heights = t := by
  simp [above, onTop, Frames.onTop, Bottoms.heights, List.rdrop]

theorem bottoms_onTop (t : Machine) (b : Bottoms) : (t.onTop b).bottoms b.heights = b := by
  simp [bottoms, onTop, Frames.onTop, Bottoms.heights, List.rtake]

theorem heights_bottoms {m : Machine} (hl : h.locals ≤ m.frames.locals.length)
    (hd : h.data ≤ m.data.length) (hc : h.calls ≤ m.calls.length) :
    (m.bottoms h).heights = h := by
  obtain ⟨hL, hD, hC⟩ := h
  simp only [Bottoms.heights, bottoms, List.rtake, List.length_drop, Heights.mk.injEq] at *
  omega

/-! ## The frame rule for one step -/

theorem Effect.of_onTop (he : Effect (t.onTop b) i flow m') (hbrk : i ≠ .brk)
    (hlocals : t.frames.locals ≠ []) (hdata : b.data.length ≤ m'.data.length)
    (hcalls : b.calls.length ≤ m'.calls.length) :
    ∃ t' : Machine, m' = t'.onTop b ∧ ∀ other, Effect (t.onTop other) i flow (t'.onTop other) := by
  -- Only POPS and RETURN could reach what lies below, and they would leave a stack lower than that.
  have heval := fun s => Frames.seesAbove_eval hlocals s
  have hset := fun v a => Frames.staysAbove_set hlocals v a
  cases he with
  | move ha hf =>
    obtain ⟨fs, rfl, hfs⟩ := (hset _ _).of_ok hf
    exact ⟨{ t with frames := fs }, rfl, fun other => .move ((heval _).of_ok ha _) (hfs _)⟩
  | createFrame => exact ⟨{ t with frames := t.frames.create }, rfl, fun other => .createFrame⟩
  | pushFrame hf =>
    obtain ⟨fs, rfl, hfs⟩ := Frames.staysAbove_push.of_ok hf
    exact ⟨{ t with frames := fs }, rfl, fun other => .pushFrame (hfs _)⟩
  | popFrame hf =>
    obtain ⟨fs, rfl, hfs⟩ := (Frames.staysAbove_pop hlocals).of_ok hf
    exact ⟨{ t with frames := fs }, rfl, fun other => .popFrame (hfs _)⟩
  | defVar hf =>
    obtain ⟨fs, rfl, hfs⟩ := (Frames.staysAbove_declare hlocals _).of_ok hf
    exact ⟨{ t with frames := fs }, rfl, fun other => .defVar (hfs _)⟩
  | call hp => exact ⟨{ t with calls := (t.pc + 1) :: t.calls }, rfl, fun other => .call hp⟩
  | ret hr =>
    cases htop : t.calls with
    | nil =>
      simp only [onTop, htop, List.nil_append] at hr
      simp only [hr, List.length_cons] at hcalls
      omega
    | cons r rest =>
      simp only [onTop, htop, List.cons_append, List.cons.injEq] at hr
      obtain ⟨rfl, rfl⟩ := hr
      refine ⟨{ t with calls := rest }, rfl, fun other => .ret ?_⟩
      simp [onTop, htop]
  | @pushs src a ha =>
    exact ⟨{ t with data := a :: t.data }, rfl, fun other => .pushs ((heval _).of_ok ha _)⟩
  | pops hd hf =>
    obtain ⟨fs, rfl, hfs⟩ := (hset _ _).of_ok hf
    cases htop : t.data with
    | nil =>
      simp only [onTop, htop, List.nil_append] at hd
      simp only [hd, List.length_cons] at hdata
      omega
    | cons x rest =>
      simp only [onTop, htop, List.cons_append, List.cons.injEq] at hd
      obtain ⟨rfl, rfl⟩ := hd
      refine ⟨{ t with data := rest, frames := fs }, rfl, fun other => .pops ?_ (hfs _)⟩
      simp [onTop, htop]
  | unary ha hb hf =>
    obtain ⟨fs, rfl, hfs⟩ := (hset _ _).of_ok hf
    exact ⟨{ t with frames := fs }, rfl, fun other => .unary ((heval _).of_ok ha _) hb (hfs _)⟩
  | binary ha hb hc hf =>
    obtain ⟨fs, rfl, hfs⟩ := (hset _ _).of_ok hf
    exact ⟨{ t with frames := fs }, rfl, fun other =>
      .binary ((heval _).of_ok ha _) ((heval _).of_ok hb _) hc (hfs _)⟩
  | @read dst k input line frames hline hf =>
    obtain ⟨fs, rfl, hfs⟩ := (hset _ _).of_ok hf
    exact ⟨{ t with input, frames := fs }, rfl, fun other => .read hline (hfs _)⟩
  | @write src a output ha hw =>
    exact ⟨{ t with output }, rfl, fun other => .write ((heval _).of_ok ha _) hw⟩
  | setChar hs hn hr ha hf =>
    obtain ⟨fs, rfl, hfs⟩ := (hset _ _).of_ok hf
    have hs' := (Frames.seesAbove_valueOf hlocals _).of_ok hs
    exact ⟨{ t with frames := fs }, rfl, fun other =>
      .setChar (hs' _) ((heval _).of_ok hn _) ((heval _).of_ok hr _) ha (hfs _)⟩
  | type ha hf =>
    obtain ⟨fs, rfl, hfs⟩ := (hset _ _).of_ok hf
    have ha' := (Frames.seesAbove_look hlocals _).of_ok ha
    exact ⟨{ t with frames := fs }, rfl, fun other => .type (ha' _) (hfs _)⟩
  | label => exact ⟨t, rfl, fun other => .label⟩
  | jump hp => exact ⟨t, rfl, fun other => .jump hp⟩
  | jumpIfEq hp ha hb he =>
    exact ⟨t, rfl, fun other => .jumpIfEq hp ((heval _).of_ok ha _) ((heval _).of_ok hb _) he⟩
  | jumpIfNeq hp ha hb he =>
    exact ⟨t, rfl, fun other => .jumpIfNeq hp ((heval _).of_ok ha _) ((heval _).of_ok hb _) he⟩
  | exit ha hn => exact ⟨t, rfl, fun other => .exit ((heval _).of_ok ha _) hn⟩
  | @dprint src a diagnostic ha hw =>
    exact ⟨{ t with diagnostic }, rfl, fun other => .dprint ((heval _).of_ok ha _) hw⟩
  | brk => exact absurd rfl hbrk

theorem follow_onTop (m : Machine) (b : Bottoms) (flow : Flow) :
    (m.onTop b).follow flow = ((m.follow flow).1.onTop b, (m.follow flow).2) := by
  cases flow <;> rfl

theorem advance_onTop (hbrk : (t.onTop b).code[(t.onTop b).pc]? ≠ some .brk)
    (hok : ∀ e, (t.onTop b).advance.2 ≠ .failed e) (hlocals : t.frames.locals ≠ [])
    (hdata : b.data.length ≤ (t.onTop b).advance.1.data.length)
    (hcalls : b.calls.length ≤ (t.onTop b).advance.1.calls.length) :
    ∃ t' : Machine, ∀ other, (t.onTop other).advance = (t'.onTop other, (t.onTop b).advance.2) := by
  rcases advance_cases (t.onTop b) with ⟨hend, h⟩ | ⟨i, flow, m', hi, he, h⟩ | ⟨e, input, h⟩
  · exact ⟨t, fun other => by rw [h]; exact advance_of_end hend⟩
  · simp only [h, follow_data, follow_calls] at hdata hcalls
    obtain ⟨t', rfl, hother⟩ := he.of_onTop (fun heq => hbrk (heq ▸ hi)) hlocals hdata hcalls
    refine ⟨(t'.follow flow).1, fun other => ?_⟩
    have hi' : (t.onTop other).code[(t.onTop other).pc]? = some i := hi
    rw [h, advance_of_effect hi' (hother other), follow_onTop, follow_onTop]
  · exact absurd (congrArg Prod.snd h) (hok e)

/-! ## The frame rule for runs -/

/-- The run never goes below what is buried, prints no snapshot and does not fail. -/
structure StaysAbove (m : Machine) (h : Heights) (n : Nat) : Prop where
  no_failure : ∀ e, (m.execute n).2 ≠ .failed e
  no_brk : ∀ k < n, ¬ m.Executes k .brk
  locals : ∀ k ≤ n, h.locals < (m.state k).frames.locals.length
  data : ∀ k ≤ n, h.data ≤ (m.state k).data.length
  calls : ∀ k ≤ n, h.calls ≤ (m.state k).calls.length

theorem StaysAbove.execute_onTop {n : Nat} (hs : (t.onTop b).StaysAbove b.heights n) {k : Nat}
    (hk : k ≤ n) :
    ∃ t' : Machine, ∀ other,
      (t.onTop other).execute k = (t'.onTop other, ((t.onTop b).execute k).2) := by
  induction k with
  | zero => exact ⟨t, fun other => rfl⟩
  | succ k ih =>
    obtain ⟨t', ht'⟩ := ih (by omega)
    have hstate : (t.onTop b).state k = t'.onTop b := congrArg Prod.fst (ht' b)
    by_cases hrun : ((t.onTop b).execute k).2 = .running
    · have hnext : ∀ other, (t.onTop other).execute (k + 1) = (t'.onTop other).advance := by
        intro other
        have hother : ((t.onTop other).execute k).2 = .running := by rw [ht' other, hrun]
        rw [execute_succ_of_running hother, ht' other]
      have hstate' : (t.onTop b).state (k + 1) = (t'.onTop b).advance.1 := by
        unfold state
        rw [hnext b]
      have hlocals : t'.frames.locals ≠ [] := by
        have hlt := hs.locals k (by omega)
        rw [hstate] at hlt
        rintro hnil
        simp [onTop, Frames.onTop, hnil, Bottoms.heights] at hlt
      have hdata := hs.data (k + 1) hk
      have hcalls := hs.calls (k + 1) hk
      rw [hstate'] at hdata hcalls
      have hok : ∀ e, (t'.onTop b).advance.2 ≠ .failed e := by
        -- A failure would have been the end of the run.
        intro e he
        rw [← hnext b] at he
        obtain ⟨d, rfl⟩ := Nat.exists_eq_add_of_le hk
        exact hs.no_failure e (by rw [execute_add_of_stopped (by simp [he]), he])
      have hbrk : (t'.onTop b).code[(t'.onTop b).pc]? ≠ some .brk := by
        intro hi
        exact hs.no_brk k hk ⟨hrun, by rwa [hstate]⟩
      obtain ⟨t'', ht''⟩ := advance_onTop hbrk hok hlocals hdata hcalls
      exact ⟨t'', fun other => by rw [hnext, hnext, ht'']⟩
    · refine ⟨t', fun other => ?_⟩
      have hother : ((t.onTop other).execute k).2 ≠ .running := by rwa [ht' other]
      rw [execute_add_of_stopped hother, execute_add_of_stopped hrun, ht']

/-- The frame rule. A run that stays above what is buried is the same whatever is buried there, and
leaves it as it is. -/
theorem execute_rebase {s : Machine} {n : Nat} (hs : s.StaysAbove h n) (b : Bottoms) {k : Nat}
    (hk : k ≤ n) :
    (s.rebase h b).execute k = ((s.state k).rebase h b, (s.execute k).2) ∧
      (s.state k).bottoms h = s.bottoms h ∧ ((s.rebase h b).state k).bottoms b.heights = b := by
  have hh : (s.bottoms h).heights = h :=
    heights_bottoms (Nat.le_of_lt (hs.locals 0 (by omega))) (hs.data 0 (by omega))
      (hs.calls 0 (by omega))
  have hself : (s.above h).onTop (s.bottoms h) = s := rebase_bottoms s h
  have hs' : ((s.above h).onTop (s.bottoms h)).StaysAbove (s.bottoms h).heights n := by
    rwa [hself, hh]
  -- The same top serves for both bottoms.
  obtain ⟨t, ht⟩ := hs'.execute_onTop hk
  rw [hself] at ht
  have hstate : s.state k = t.onTop (s.bottoms h) := by
    have := congrArg Prod.fst (ht (s.bottoms h))
    rwa [hself] at this
  have hother : (s.rebase h b).execute k = (t.onTop b, (s.execute k).2) := ht b
  have habove : (t.onTop (s.bottoms h)).above h = t := by
    have := above_onTop t (s.bottoms h)
    rwa [hh] at this
  have hbottoms : (t.onTop (s.bottoms h)).bottoms h = s.bottoms h := by
    have := bottoms_onTop t (s.bottoms h)
    rwa [hh] at this
  refine ⟨?_, ?_, ?_⟩
  · rw [hother, hstate, rebase, habove]
  · rw [hstate, hbottoms]
  · rw [state, hother]
    exact bottoms_onTop t b

/-- Inside a routine whose caller has a frame, a value and a return address of its own. -/
def insideRoutine : Machine :=
  let x : Variable := { frame := .local, name := "x" }
  { fresh (.ofBytes []) .unlimited .unlimited with
    code := #[.defVar x, .pops x, .createFrame, .pushFrame, .popFrame, .write (.var x), .ret]
    frames := { global := .empty, locals := [.empty, .empty], temporary := none }
    data := [.int 5, .bool true]
    calls := [7, 4] }

theorem insideRoutine_rebase :
    let h : Heights := { locals := 1, data := 1, calls := 1 }
    let b : Bottoms := { locals := [], data := [.nil, .int 3], calls := [2, 6] }
    insideRoutine.StaysAbove h 7 ∧
      (insideRoutine.rebase h b).execute 7 =
        ((insideRoutine.state 7).rebase h b, .running) ∧
      (insideRoutine.state 7).output.text = "5" ∧
      ((insideRoutine.rebase h b).state 7).bottoms b.heights = b := by
  intro h b
  have hs : insideRoutine.StaysAbove h 7 := by
    constructor
    · rintro e ⟨⟩
    · intro k hk hb
      have : ∀ k < 7, (insideRoutine.state k).code[(insideRoutine.state k).pc]? ≠ some .brk := by
        decide
      exact this k hk hb.2
    · decide
    · decide
    · decide
  obtain ⟨hrun, -, hbottoms⟩ := execute_rebase hs b (Nat.le_refl 7)
  exact ⟨hs, hrun, rfl, hbottoms⟩

end Machine

end ThreeAddress
