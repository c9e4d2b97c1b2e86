import ThreeAddress.Proofs.Machine.Execution

/-!
# Calls and returns

Only RETURN takes an address off the call stack, so it is how a run comes back below a call.
-/

namespace ThreeAddress.Machine

variable {m m' : Machine} {i : Instruction} {flow : Flow} {label : String} {k n : Nat}

/-! ## One step -/

theorem Effect.calls_cases (h : Effect m i flow m') :
    m'.calls = m.calls ∨ m'.calls = (m.pc + 1) :: m.calls ∨
      i = .ret ∧ ∃ position, flow = .jump position ∧ m.calls = position :: m'.calls := by
  cases h with
  | call => exact .inr (.inl rfl)
  | ret hcalls => exact .inr (.inr ⟨rfl, _, rfl, hcalls⟩)
  | _ => exact .inl rfl

theorem calls_succ (m : Machine) (n : Nat) :
    (m.state (n + 1)).calls = (m.state n).calls ∨
    (m.state (n + 1)).calls = ((m.state n).pc + 1) :: (m.state n).calls ∨
    m.Executes n .ret ∧ (m.state n).calls = (m.state (n + 1)).pc :: (m.state (n + 1)).calls := by
  by_cases hrun : (m.execute n).2 = .running
  · rw [state_succ_of_running hrun]
    rcases advance_cases (m.state n) with ⟨-, h⟩ | ⟨i, flow, m', hi, he, h⟩ | ⟨e, input, h⟩
    · left
      rw [h]
    · simp only [h, follow_calls]
      rcases he.calls_cases with hsame | hpush | ⟨rfl, position, rfl, hpop⟩
      · exact .inl hsame
      · exact .inr (.inl hpush)
      · exact .inr (.inr ⟨⟨hrun, hi⟩, hpop⟩)
    · left
      rw [h]
  · left
    rw [state_succ_of_stopped hrun]

theorem calls_of_call (hcall : m.Executes k (.call label))
    (hok : (m.execute (k + 1)).2 = .running) :
    (m.state (k + 1)).calls = ((m.state k).pc + 1) :: (m.state k).calls := by
  obtain ⟨hrun, hi⟩ := hcall
  rw [execute_succ_of_running hrun] at hok
  obtain ⟨i, flow, m', hi', he, h⟩ := effect_of_running hok
  rw [state_succ_of_running hrun]
  unfold state at hi ⊢
  rw [h, follow_calls]
  rw [hi, Option.some.injEq] at hi'
  subst hi'
  cases he
  rfl

/-! ## Runs -/

theorem pop_above {further rest below : List Nat} {top r : Nat}
    (h : further ++ r :: below = top :: rest) :
    top = r ∧ rest = below ∨ ∃ further', rest = further' ++ r :: below := by
  cases further with
  | nil =>
    simp only [List.nil_append, List.cons.injEq] at h
    exact .inl ⟨h.1.symm, h.2.symm⟩
  | cons x further' =>
    simp only [List.cons_append, List.cons.injEq] at h
    exact .inr ⟨further', h.2.symm⟩

theorem calls_above (hcall : m.Executes k (.call label)) (hok : (m.execute (k + 1)).2 = .running)
    (hkn : k < n)
    (habove : ∀ j, k < j → j ≤ n → (m.state k).calls.length < (m.state j).calls.length) :
    ∃ further, (m.state n).calls = further ++ ((m.state k).pc + 1) :: (m.state k).calls := by
  -- The induction is on the steps since the call. Only a RETURN could take its address off.
  induction hkn with
  | refl => exact ⟨[], calls_of_call hcall hok⟩
  | @step n hkn ih =>
    obtain ⟨further, hn⟩ := ih fun j hj hle => habove j hj (by omega)
    rcases calls_succ m n with hsame | hpush | ⟨-, hpop⟩
    · exact ⟨further, by rw [hsame, hn]⟩
    · exact ⟨_ :: further, by rw [hpush, hn]; rfl⟩
    · rw [hn] at hpop
      rcases pop_above hpop with ⟨-, hbelow⟩ | hfurther
      · have hlt := habove (n + 1) (Nat.lt_succ_of_lt hkn) (Nat.le_refl _)
        rw [hbelow] at hlt
        omega
      · exact hfurther

/-- A call is matched by the first step that leaves the call stack as low as before it: a RETURN to
the instruction after the call. Until then the address of the call is on the stack. -/
theorem call_matched_by_return (hcall : m.Executes k (.call label))
    (hok : (m.execute (k + 1)).2 = .running) (hkn : k < n)
    (hbetween : ∀ j, k < j → j < n → (m.state k).calls.length < (m.state j).calls.length) :
    (∀ j, k < j → j < n →
      ∃ further, (m.state j).calls = further ++ ((m.state k).pc + 1) :: (m.state k).calls) ∧
    ((m.state n).calls.length ≤ (m.state k).calls.length →
      (m.state n).calls = (m.state k).calls ∧ (m.state n).pc = (m.state k).pc + 1 ∧
        m.Executes (n - 1) .ret) := by
  have habove : ∀ j, k < j → j < n →
      ∃ further, (m.state j).calls = further ++ ((m.state k).pc + 1) :: (m.state k).calls :=
    fun j hj hjn => calls_above hcall hok hj fun l hl hlj => hbetween l hl (by omega)
  refine ⟨habove, fun hlow => ?_⟩
  obtain ⟨last, rfl⟩ : ∃ last, n = last + 1 := ⟨n - 1, by omega⟩
  have hlast : k < last := by
    -- The call itself leaves the stack higher.
    by_contra hle
    obtain rfl : last = k := by omega
    rw [calls_of_call hcall hok, List.length_cons] at hlow
    omega
  obtain ⟨further, hcalls⟩ := habove last hlast (by omega)
  have hlen : (m.state k).calls.length < (m.state last).calls.length :=
    hbetween last hlast (by omega)
  rcases calls_succ m last with hsame | hpush | ⟨hret, hpop⟩
  · rw [hsame] at hlow
    omega
  · rw [hpush, List.length_cons] at hlow
    omega
  · rw [hcalls] at hpop
    rcases pop_above hpop with ⟨hpc, hbelow⟩ | ⟨further', hfurther⟩
    · exact ⟨hbelow, hpc, hret⟩
    · rw [hfurther, List.length_append, List.length_cons] at hlow
      omega

/-- Calls a routine that calls another one. -/
def nestedCalls : Machine :=
  ((fresh (.ofBytes []) .unlimited .unlimited).ingest
    [.call "f", .jump "end", .label "f", .call "g", .ret, .label "g", .ret, .label "end"]).1

theorem nestedCalls_return :
    nestedCalls.Executes 0 (.call "f") ∧ (nestedCalls.execute 1).2 = .running ∧
      (∀ j, 0 < j → j < 4 → 0 < (nestedCalls.state j).calls.length) ∧
      (nestedCalls.state 4).calls = [] ∧ (nestedCalls.state 4).pc = 1 ∧
      nestedCalls.Executes 3 .ret ∧ ∃ further, (nestedCalls.state 2).calls = further ++ [1] := by
  have hcall : nestedCalls.Executes 0 (.call "f") := ⟨rfl, rfl⟩
  have hbetween : ∀ j, 0 < j → j < 4 → 0 < (nestedCalls.state j).calls.length := by
    intro j hj hlt
    obtain rfl | rfl | rfl : j = 1 ∨ j = 2 ∨ j = 3 := by omega
    all_goals decide
  obtain ⟨habove, hlow⟩ := call_matched_by_return hcall rfl (by decide) hbetween
  obtain ⟨hcalls, hpc, hret⟩ := hlow (Nat.le_refl 0)
  exact ⟨hcall, rfl, hbetween, hcalls, hpc, hret, habove 2 (by decide) (by decide)⟩

end ThreeAddress.Machine
