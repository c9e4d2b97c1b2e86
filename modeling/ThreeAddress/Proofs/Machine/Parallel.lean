import ThreeAddress.Proofs.Machine.Atomicity

/-!
# Two machines side by side

Two actions run in parallel if they keep machines together that belong together, and succeed or fail
together.
-/

namespace ThreeAddress

structure Pairing where
  machines : Machine → Machine → Prop
  errors : RuntimeError → RuntimeError → Prop
  errorHere : ∀ {r m}, machines r m → ∀ fault, errors (r.errorHere fault) (m.errorHere fault)

namespace Pairing

open ThreeAddress.Action

variable {P : Pairing} {α β γ δ : Type}

/-- Two ends that belong together, with results as `Q` says. -/
inductive Ends (P : Pairing) (Q : α → β → Prop) :
    EStateM.Result RuntimeError Machine α → EStateM.Result RuntimeError Machine β → Prop
  | ok {a b r m} : Q a b → P.machines r m → Ends P Q (.ok a r) (.ok b m)
  | error {e e' r m} : P.errors e e' → P.machines r m → Ends P Q (.error e r) (.error e' m)

def Parallel (P : Pairing) (Q : α → β → Prop) (x : Action α) (y : Action β) : Prop :=
  ∀ r m, P.machines r m → P.Ends Q (x.run r) (y.run m)

/-! ## Sequences -/

theorem parallel_pure {Q : α → β → Prop} {a : α} {b : β} (h : Q a b) :
    P.Parallel Q (pure a) (pure b) :=
  fun _ _ hm => .ok h hm

theorem Parallel.bind {Q : α → β → Prop} {Q' : γ → δ → Prop} {x : Action α} {y : Action β}
    {f : α → Action γ} {g : β → Action δ} (hx : P.Parallel Q x y)
    (hf : ∀ a b, Q a b → P.Parallel Q' (f a) (g b)) : P.Parallel Q' (x >>= f) (y >>= g) := by
  intro r m hm
  have h := hx r m hm
  rw [EStateM.run_bind, EStateM.run_bind]
  generalize x.run r = s at h ⊢
  generalize y.run m = t at h ⊢
  cases h with
  | ok hab hm' => exact hf _ _ hab _ _ hm'
  | error he hm' => exact .error he hm'

theorem Parallel.bind_eq {Q : β → γ → Prop} {x y : Action α} {f : α → Action β} {g : α → Action γ}
    (hx : P.Parallel Eq x y) (hf : ∀ a, P.Parallel Q (f a) (g a)) :
    P.Parallel Q (x >>= f) (y >>= g) := by
  refine hx.bind fun a b hab => ?_
  subst hab
  exact hf a

/-! ## Parts of instructions -/

theorem parallel_modify {f g : Machine → Machine}
    (h : ∀ r m, P.machines r m → P.machines (f r) (g m)) :
    P.Parallel Eq (modify f) (modify g) :=
  fun r m hm => .ok rfl (h r m hm)

theorem parallel_check (result : Except Fault α) (φ : α → β) :
    P.Parallel (fun a b => b = φ a) (check result) (check (result.map φ)) := by
  intro r m hm
  cases result with
  | ok a => exact .ok rfl hm
  | error fault => exact .error (P.errorHere hm fault) hm

theorem parallel_check_eq (result : Except Fault α) :
    P.Parallel Eq (check result) (check result) := by
  intro r m hm
  cases result with
  | ok a => exact .ok rfl hm
  | error fault => exact .error (P.errorHere hm fault) hm

theorem parallel_ask {look : Machine → Except Fault α} {look' : Machine → Except Fault β}
    {φ : α → β} (h : ∀ r m, P.machines r m → look' m = (look r).map φ) :
    P.Parallel (fun a b => b = φ a) (ask look) (ask look') := by
  intro r m hm
  change P.Ends _ ((check (look r)).run r) ((check (look' m)).run m)
  rw [h r m hm]
  exact parallel_check (look r) φ r m hm

theorem parallel_ask_eq {look look' : Machine → Except Fault α}
    (h : ∀ r m, P.machines r m → look r = look' m) : P.Parallel Eq (ask look) (ask look') := by
  intro r m hm
  change P.Ends _ ((check (look r)).run r) ((check (look' m)).run m)
  rw [h r m hm]
  exact parallel_check_eq (look' m) r m hm

/-! ## Instructions -/

/-- Control goes on to the same place up to a renaming of positions. -/
inductive Follows (φ : Nat → Nat) : Flow → Flow → Prop
  | next : Follows φ .next .next
  | jump {position : Nat} : Follows φ (.jump position) (.jump (φ position))
  | exit {code : Nat} : Follows φ (.exit code) (.exit code)

/-- The parts of which instructions are made run in parallel, except for what only WRITE and BREAK
do. Positions in the code are renamed, and all other values are the same. -/
structure Respects (P : Pairing) (φ : Nat → Nat) : Prop where
  createFrame : P.Parallel Eq createFrame createFrame
  pushFrame : P.Parallel Eq pushFrame pushFrame
  popFrame : P.Parallel Eq popFrame popFrame
  declare : ∀ v, P.Parallel Eq (declare v) (declare v)
  set : ∀ v a, P.Parallel Eq (set v a) (set v a)
  eval : ∀ s, P.Parallel Eq (eval s) (eval s)
  look : ∀ s, P.Parallel Eq (look s) (look s)
  valueOf : ∀ v, P.Parallel Eq (valueOf v) (valueOf v)
  target : ∀ label, P.Parallel (fun a b => b = φ a) (target label) (target label)
  pushCall : P.Parallel Eq pushCall pushCall
  popCall : P.Parallel (fun a b => b = φ a) popCall popCall
  pushData : ∀ a, P.Parallel Eq (pushData a) (pushData a)
  topData : P.Parallel Eq topData topData
  dropData : P.Parallel Eq dropData dropData
  readLine : P.Parallel Eq readLine readLine
  writeDiagnostic : ∀ s, P.Parallel Eq (writeDiagnostic s) (writeDiagnostic s)

variable {φ : Nat → Nat}

theorem Parallel.next {x y : Action Unit} (h : P.Parallel Eq x y) :
    P.Parallel (Follows φ) (x >>= fun _ => pure .next) (y >>= fun _ => pure .next) :=
  h.bind_eq fun _ => parallel_pure .next

theorem parallel_branch (h : P.Respects φ) (op : Opcode) (wanted : Bool) (label : String)
    (left right : Symbol) :
    P.Parallel (Follows φ) (branch op wanted label left right)
      (branch op wanted label left right) := by
  have hequal : P.Parallel Eq (equal op left right) (equal op left right) :=
    (h.eval left).bind_eq fun _ => (h.eval right).bind_eq fun _ => parallel_check_eq _
  refine (h.target label).bind fun position _ hposition => hequal.bind_eq fun result => ?_
  subst hposition
  refine parallel_pure ?_
  split
  · exact .jump
  · exact .next

theorem parallel_step (h : P.Respects φ) {i : Instruction}
    (hwrite : ∀ src, i = .write src → ∀ s, P.Parallel Eq (writeOutput s) (writeOutput s))
    (hbrk : i = .brk → P.Parallel (Follows φ) (step .brk) (step .brk)) :
    P.Parallel (Follows φ) (step i) (step i) := by
  -- WRITE and BREAK may look at what the two machines do not share.
  cases i with
  | move dst src => exact (h.eval src).bind_eq fun a => (h.set dst a).next
  | createFrame => exact h.createFrame.next
  | pushFrame => exact h.pushFrame.next
  | popFrame => exact h.popFrame.next
  | defVar v => exact (h.declare v).next
  | call label =>
    refine (h.target label).bind fun position _ hposition => ?_
    subst hposition
    exact h.pushCall.bind_eq fun _ => parallel_pure .jump
  | ret =>
    refine h.popCall.bind fun position _ hposition => ?_
    subst hposition
    exact parallel_pure .jump
  | pushs src => exact (h.eval src).bind_eq fun a => (h.pushData a).next
  | pops dst => exact h.topData.bind_eq fun a => (h.set dst a).bind_eq fun _ => h.dropData.next
  | unary op dst src =>
    exact (h.eval src).bind_eq fun a => (parallel_check_eq _).bind_eq fun b => (h.set dst b).next
  | binary op dst left right =>
    exact (h.eval left).bind_eq fun a => (h.eval right).bind_eq fun b =>
      (parallel_check_eq _).bind_eq fun c => (h.set dst c).next
  | read dst k => exact h.readLine.bind_eq fun line => (h.set dst _).next
  | write src => exact (h.eval src).bind_eq fun a => (hwrite src rfl _).next
  | setChar dst index replacement =>
    exact (h.valueOf dst).bind_eq fun s => (h.eval index).bind_eq fun n =>
      (h.eval replacement).bind_eq fun c => (parallel_check_eq _).bind_eq fun a => (h.set dst a).next
  | type dst src => exact (h.look src).bind_eq fun a => (h.set dst _).next
  | label name => exact parallel_pure .next
  | jump label =>
    refine (h.target label).bind fun position _ hposition => ?_
    subst hposition
    exact parallel_pure .jump
  | jumpIfEq label left right | jumpIfNeq label left right =>
    exact parallel_branch h _ _ label left right
  | exit code =>
    exact (h.eval code).bind_eq fun a => (parallel_check_eq _).bind_eq fun n => parallel_pure .exit
  | dprint src => exact (h.eval src).bind_eq fun a => (h.writeDiagnostic _).next
  | brk => exact hbrk rfl

end Pairing

end ThreeAddress
