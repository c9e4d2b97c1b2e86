import ThreeAddress.Proofs.Except
import ThreeAddress.Proofs.Machine.Execution
import ThreeAddress.Proofs.Suite.Cases
import ThreeAddress.Suite.Report

/-!
# What the report says

A case passes if it returns the expected code and, where that is success, the expected output.
-/

namespace ThreeAddress.Suite

open Entry

/-! ## One case -/

/-- The output is the expected one: the same text, or a document of the same program. -/
def Matches (mode : Mode) (output expected : String) : Prop :=
  match mode with
  | .parseOnly => ∃ p, Document.load output = .ok p ∧ Document.load expected = .ok p
  | .both | .interpretOnly => output = expected

namespace Case

/-- The exit code and the output of a case. -/
def produced (fuel : Nat) (mode : Mode) (c : Case) : Option (Nat × String) :=
  match c.companion? "src" with
  | some source => outcome fuel mode source ((c.companion? "in").getD "")
  | none => rejected .inputOpen

/-- The result of a case that returns the given code and output. -/
def result (mode : Mode) (base : String) (c : Case) (returned : Nat) (output : String) : Result :=
  { name := c.name base
    expected := c.expected
    returned
    outputMatches :=
      if c.expected = 0 ∧ returned = 0 then
        some (agrees mode output ((c.companion? "out").getD ""))
      else none }

/-- The case returns the expected code, and if that is zero the expected output. -/
def Passes (fuel : Nat) (mode : Mode) (c : Case) : Prop :=
  ∃ returned output, c.produced fuel mode = some (returned, output) ∧ c.expected = returned ∧
    (c.expected = 0 ∧ returned = 0 → Matches mode output ((c.companion? "out").getD ""))

end Case

variable {fuel fuel' returned : Nat} {mode : Mode} {base output expected : String} {c d : Case}
  {cs : List Case} {r : Result} {results : List Result}

theorem agrees_iff : agrees mode output expected = true ↔ Matches mode output expected := by
  cases mode with
  | parseOnly =>
    simp only [agrees, Matches]
    constructor
    · intro h
      split at h
      · rename_i p q hp hq
        obtain rfl := beq_iff_eq.1 h
        exact ⟨p, hp, hq⟩
      · cases h
    · rintro ⟨p, hp, hq⟩
      simp only [hp, hq, beq_self_eq_true]
  | both | interpretOnly => exact beq_iff_eq

theorem run_eq_map (c : Case) :
    c.run fuel mode base = (c.produced fuel mode).map fun p => c.result mode base p.1 p.2 := rfl

theorem run_eq_some_iff :
    c.run fuel mode base = some r ↔
      ∃ returned output, c.produced fuel mode = some (returned, output) ∧
        r = c.result mode base returned output := by
  rw [run_eq_map, Option.map_eq_some_iff, Prod.exists]
  simp only [eq_comm]

theorem passes_iff (h : c.produced fuel mode = some (returned, output)) (base : String) :
    c.Passes fuel mode ↔ (c.result mode base returned output).passed = true := by
  have hpasses : c.Passes fuel mode ↔ c.expected = returned ∧
      (c.expected = 0 ∧ returned = 0 → Matches mode output ((c.companion? "out").getD "")) := by
    constructor
    · rintro ⟨returned', output', h', hpass⟩
      rw [h] at h'
      cases h'
      exact hpass
    · intro hpass
      exact ⟨returned, output, h, hpass⟩
  rw [hpasses, Result.passed, Bool.and_eq_true, beq_iff_eq, bne_iff_ne, Case.result,
    ← agrees_iff]
  refine and_congr_right fun _ => ?_
  split
  · rename_i hzero
    simp [hzero]
  · rename_i hzero
    simp [hzero]

instance (fuel : Nat) (mode : Mode) (c : Case) : Decidable (c.Passes fuel mode) :=
  match h : c.produced fuel mode with
  | some (_, _) => decidable_of_iff' _ (passes_iff h "")
  | none => isFalse (by rintro ⟨_, _, h', -⟩; rw [h] at h'; cases h')

/-! ## More instructions -/

theorem run_of_le {m : Machine} {p : Program} (h : (m.run fuel p).2 ≠ .running)
    (hle : fuel ≤ fuel') : m.run fuel' p = m.run fuel p := by
  unfold Machine.run at h ⊢
  split
  · rfl
  · rename_i m' hingest
    simp only [hingest] at h
    have hstop : (m'.execute fuel).2 ≠ .running := by
      intro hrunning
      apply h
      split
      · rename_i heq
        rw [heq] at hrunning
        cases hrunning
      · exact hrunning
    obtain ⟨k, rfl⟩ := Nat.exists_eq_add_of_le hle
    rw [Machine.execute_add_of_stopped hstop]

theorem execute_of_le {p : Program} {input : String} {o : Nat × String}
    (h : execute fuel p input = some o) (hle : fuel ≤ fuel') : execute fuel' p input = some o := by
  unfold execute at h ⊢
  dsimp only at h ⊢
  rw [run_of_le _ hle]
  · exact h
  · intro hrunning
    split at h
    · cases h
    · rename_i heq
      rw [heq] at hrunning
      cases hrunning
    · rename_i heq
      rw [heq] at hrunning
      cases hrunning

theorem outcome_of_le {source input : String} {o : Nat × String}
    (h : outcome fuel mode source input = some o) (hle : fuel ≤ fuel') :
    outcome fuel' mode source input = some o := by
  unfold outcome at h ⊢
  cases mode with
  | both =>
    dsimp only at h ⊢
    split at h
    · exact h
    · split at h
      · exact h
      · exact execute_of_le h hle
  | parseOnly => exact h
  | interpretOnly =>
    dsimp only at h ⊢
    split at h
    · exact h
    · exact execute_of_le h hle

theorem run_eq_some_of_le (h : c.run fuel mode base = some r) (hle : fuel ≤ fuel') :
    c.run fuel' mode base = some r := by
  obtain ⟨returned, output, hproduced, rfl⟩ := run_eq_some_iff.1 h
  refine run_eq_some_iff.2 ⟨returned, output, ?_, rfl⟩
  unfold Case.produced at hproduced ⊢
  split
  · rename_i source hsource
    simp only [hsource] at hproduced
    exact outcome_of_le hproduced hle
  · rename_i hsource
    simp only [hsource] at hproduced
    exact hproduced

/-! ## What a case depends on -/

theorem produced_congr (hsrc : d.companion? "src" = c.companion? "src")
    (hin : d.companion? "in" = c.companion? "in") :
    d.produced fuel mode = c.produced fuel mode := by
  rw [Case.produced, Case.produced, hsrc, hin]

theorem name_congr (h : d.place = c.place) : d.name base = c.name base := by
  obtain ⟨hpath, hstem⟩ := Case.place_inj.1 h
  rw [Case.name, Case.name, Case.parts, Case.parts, hpath, hstem]

/-- The expected output is looked at only where both codes are zero. -/
theorem result_congr (hplace : d.place = c.place) (hrc : d.companion? "rc" = c.companion? "rc")
    (hout : c.expected = 0 ∧ returned = 0 → d.companion? "out" = c.companion? "out") :
    d.result mode base returned output = c.result mode base returned output := by
  have hexpected : d.expected = c.expected := by rw [Case.expected, Case.expected, hrc]
  rw [Case.result, Case.result, name_congr hplace, hexpected]
  split
  · rename_i hzero
    rw [hout hzero]
  · rfl

theorem run_congr (hplace : d.place = c.place)
    (h : ∀ extension, d.companion? extension = c.companion? extension) :
    d.run fuel mode base = c.run fuel mode base := by
  rw [run_eq_map, run_eq_map, produced_congr (h "src") (h "in")]
  congr
  funext p
  exact result_congr hplace (h "rc") fun _ => h "out"

theorem run_congr_of_failing (hplace : d.place = c.place)
    (h : ∀ extension ∈ ["src", "in", "rc"], d.companion? extension = c.companion? extension)
    (hr : c.run fuel mode base = some r) (hcodes : r.expected ≠ 0 ∨ r.returned ≠ 0) :
    d.run fuel mode base = some r := by
  obtain ⟨returned, output, hproduced, rfl⟩ := run_eq_some_iff.1 hr
  rw [← produced_congr (h "src" (by simp)) (h "in" (by simp))] at hproduced
  refine run_eq_some_iff.2 ⟨returned, output, hproduced, ?_⟩
  refine (result_congr hplace (h "rc" (by simp)) fun hzero => ?_).symm
  exact absurd hcodes (not_or.2 ⟨not_not.2 hzero.1, not_not.2 hzero.2⟩)

/-! ## All cases -/

/-- What the report says on a case: that it passes, or why it fails. -/
def Reports (fuel : Nat) (mode : Mode) (base : String) (c : Case) (line : String) : Prop :=
  c.Passes fuel mode ∧ line = "PASS  " ++ c.name base ++ "\n" ∨
    ¬c.Passes fuel mode ∧ ∃ returned output, c.produced fuel mode = some (returned, output) ∧
      line = "FAIL  " ++ c.name base ++ ": " ++
        (if c.expected = returned then "output differs"
          else "expected code " ++ toString c.expected ++ ", got " ++ toString returned) ++ "\n"

theorem line_of_failed (h : r.passed ≠ true) :
    r.line = "FAIL  " ++ r.name ++ ": " ++
      (if r.expected = r.returned then "output differs"
        else "expected code " ++ toString r.expected ++ ", got " ++ toString r.returned) ++
      "\n" := by
  have hdiffers : ": output differs\n" = ": " ++ ("output differs" ++ "\n") := by decide
  have hexpected : ": expected code " = ": " ++ "expected code " := by decide
  rw [Result.line, if_neg h]
  by_cases hcode : r.expected = r.returned
  · rw [if_pos hcode, if_neg fun hne => hne hcode, hdiffers]
    simp only [String.append_assoc]
  · rw [if_neg hcode, if_pos hcode, hexpected]
    simp only [String.append_assoc]

theorem reports_line (h : c.run fuel mode base = some r) : Reports fuel mode base c r.line := by
  obtain ⟨returned, output, hproduced, rfl⟩ := run_eq_some_iff.1 h
  have hpasses := passes_iff hproduced base
  by_cases hpass : c.Passes fuel mode
  · exact .inl ⟨hpass, if_pos (hpasses.1 hpass)⟩
  · exact .inr ⟨hpass, returned, output, hproduced, line_of_failed (hpass ∘ hpasses.2)⟩

theorem runAll_eq_some_iff :
    runAll fuel mode base cs = some results ↔
      List.Forall₂ (fun c r => c.run fuel mode base = some r) cs results :=
  mapM_eq_some_iff

theorem exists_runAll (h : ∀ c ∈ cs, (c.produced fuel mode).isSome = true) (base : String) :
    ∃ results, runAll fuel mode base cs = some results := by
  simp only [runAll_eq_some_iff]
  induction cs with
  | nil => exact ⟨[], .nil⟩
  | cons c cs ih =>
    rw [List.forall_mem_cons] at h
    obtain ⟨results, hresults⟩ := ih h.2
    obtain ⟨⟨returned, output⟩, hproduced⟩ := Option.isSome_iff_exists.1 h.1
    exact ⟨_, .cons (run_eq_some_iff.2 ⟨returned, output, hproduced, rfl⟩) hresults⟩

theorem report_of_runAll (h : runAll fuel mode base cs = some results) :
    ∃ lines, List.Forall₂ (Reports fuel mode base) cs lines ∧
      report results = String.join lines ++
        toString (cs.countP fun c => decide (c.Passes fuel mode)) ++ "/" ++ toString cs.length ++
        " passed\n" := by
  rw [runAll_eq_some_iff] at h
  have hcount : results.countP Result.passed =
      cs.countP fun c => decide (c.Passes fuel mode) := by
    induction h with
    | nil => rfl
    | @cons c r cs results hr _ ih =>
      obtain ⟨returned, output, hproduced, rfl⟩ := run_eq_some_iff.1 hr
      simp only [List.countP_cons, ih, decide_eq_true_eq, passes_iff hproduced base]
  refine ⟨results.map Result.line, ?_, ?_⟩
  · rw [List.forall₂_map_right_iff]
    exact h.imp fun _ _ => reports_line
  · rw [report, hcount, h.length_eq]

theorem runAll_of_le (h : runAll fuel mode base cs = some results) (hle : fuel ≤ fuel') :
    runAll fuel' mode base cs = some results := by
  rw [runAll_eq_some_iff] at h ⊢
  exact h.imp fun _ _ hr => run_eq_some_of_le hr hle

theorem map_eq_map_of_map_eq {α β γ : Type} {f : α → β} {g : α → γ} {xs ys : List α}
    (h : xs.map f = ys.map f) (hg : ∀ x ∈ xs, ∀ y ∈ ys, f x = f y → g x = g y) :
    xs.map g = ys.map g := by
  induction xs generalizing ys with
  | nil => rw [List.map_eq_nil_iff.1 h.symm]
  | cons x xs ih =>
    cases ys with
    | nil => cases h
    | cons y ys =>
      rw [List.map_cons, List.map_cons, List.cons.injEq] at h
      rw [List.map_cons, List.map_cons, hg x List.mem_cons_self y List.mem_cons_self h.1,
        ih h.2 fun x hx y hy => hg x (List.mem_cons_of_mem _ hx) y (List.mem_cons_of_mem _ hy)]

theorem runAll_congr {cs' : List Case} (hplace : cs'.map Case.place = cs.map Case.place)
    (hrun : ∀ d ∈ cs', ∀ c ∈ cs, d.place = c.place →
      d.run fuel mode base = c.run fuel mode base) :
    runAll fuel mode base cs' = runAll fuel mode base cs := by
  have hmap := map_eq_map_of_map_eq hplace hrun
  have hrunAll : ∀ cs, runAll fuel mode base cs = (cs.map (Case.run fuel mode base)).mapM id := by
    intro cs
    rw [List.mapM_map]
    rfl
  rw [hrunAll, hrunAll, hmap]

/-! ## Other trees -/

variable {recursive : Bool} {entries entries' : List (String × Entry)} {apart : String → Prop}

theorem exists_lists_of_sameFiles (hstems : PlainStems (.directory entries))
    (hcs : Lists recursive (.directory entries) cs) (h' : Proper (.directory entries'))
    (hsame : SameFiles apart (.directory entries) (.directory entries'))
    (hsrc : ∀ stem, ¬apart (stem ++ ".src")) :
    ∃ cs', cases recursive (.directory entries') = .ok cs' ∧
      Lists recursive (.directory entries') cs' ∧ cs'.map Case.place = cs.map Case.place := by
  obtain ⟨cs', hcases, hcs'⟩ := exists_lists h' (hstems.of_sameFiles hsame hsrc)
  exact ⟨cs', hcases, hcs', hcs.map_place_eq hcs' hsame hsrc⟩

/-- The name of a file with an expected output. -/
def IsOut (name : String) : Prop := ∃ stem, name = stem ++ ".out"

theorem not_isOut {stem last : String} (h : last.toList.getLast? ∉ [none, some 't']) :
    ¬IsOut (stem ++ last) := by
  rintro ⟨stem', heq⟩
  have hlast := congrArg (fun s : String => s.toList.getLast?) heq
  simp only [String.toList_append, List.getLast?_append] at hlast
  rw [List.mem_cons, List.mem_singleton, not_or] at h
  obtain ⟨x, hx⟩ := Option.ne_none_iff_exists'.1 h.1
  rw [hx] at hlast h
  exact h.2 hlast

/-- Every case is found once, however directories list what is in them, and the report counts those
that pass. An expected output matters only to a case that is expected to succeed and does. -/
theorem cases_found_and_counted (h : Proper (.directory entries))
    (hstems : PlainStems (.directory entries)) (recursive : Bool) :
    ∃ cs, cases recursive (.directory entries) = .ok cs ∧
      (cs.map Case.place).Pairwise Precedes ∧
      (∀ path name, (∃ c ∈ cs, c.path = path ∧ c.stem ++ ".src" = name) ↔
        extension? name = some "src" ∧ (recursive = true ∨ path = []) ∧
          ∃ bytes, Leads (.directory entries) (path ++ [name]) (.file bytes)) ∧
      (∀ e, Relisted (.directory entries) e → ∃ cs', cases recursive e = .ok cs' ∧
        cs'.map Case.place = cs.map Case.place ∧
        ∀ fuel mode base, runAll fuel mode base cs' = runAll fuel mode base cs) ∧
      (∀ fuel mode base, (∀ c ∈ cs, (c.produced fuel mode).isSome = true) →
        ∃ results lines, runAll fuel mode base cs = some results ∧
          List.Forall₂ (fun c r => c.run fuel mode base = some r) cs results ∧
          List.Forall₂ (Reports fuel mode base) cs lines ∧
          report results = String.join lines ++
            toString (cs.countP fun c => decide (c.Passes fuel mode)) ++ "/" ++
            toString cs.length ++ " passed\n" ∧
          ∀ fuel', fuel ≤ fuel' → runAll fuel' mode base cs = some results) ∧
      ∀ entries', Proper (.directory entries') →
        SameFiles IsOut (.directory entries) (.directory entries') →
        ∃ cs', cases recursive (.directory entries') = .ok cs' ∧
          cs'.map Case.place = cs.map Case.place ∧
          ∀ c ∈ cs, ∀ d ∈ cs', d.place = c.place → ∀ fuel mode base r,
            c.run fuel mode base = some r → r.expected ≠ 0 ∨ r.returned ≠ 0 →
              d.run fuel mode base = some r := by
  obtain ⟨cs, hcases, hcs⟩ := @exists_lists recursive entries h hstems
  refine ⟨cs, hcases, hcs.ordered, ?_, ?_, ?_, ?_⟩
  · intro path name
    exact hcs.exists_mem_iff
  · -- Another listing holds the same files, so the same cases are found with the same companions.
    intro e hrelisted
    obtain ⟨entries', rfl⟩ := hrelisted.exists_directory
    have h' := hrelisted.proper h
    have hsame := hrelisted.sameFiles fun _ => False
    obtain ⟨cs', hcases', hcs', hplace⟩ :=
      exists_lists_of_sameFiles hstems hcs h' hsame fun _ => not_false
    refine ⟨cs', hcases', hplace, fun fuel mode base => runAll_congr hplace ?_⟩
    intro d hd c hc hdc
    have hfound := (hcs.complete c).1 hc
    have hfound' := (hcs'.complete d).1 hd
    exact run_congr hdc fun _ => hfound.companion?_congr h hfound' h' hdc hsame not_false
  · intro fuel mode base hends
    obtain ⟨results, hresults⟩ := exists_runAll hends base
    obtain ⟨lines, hlines, hreport⟩ := report_of_runAll hresults
    exact ⟨results, lines, hresults, runAll_eq_some_iff.1 hresults, hlines, hreport,
      fun fuel' hle => runAll_of_le hresults hle⟩
  · -- The source, the input and the expected code are not in the files that may differ.
    intro entries' h' hsame
    have hsrc : ∀ stem, ¬IsOut (stem ++ ".src") := fun _ => not_isOut (by decide)
    obtain ⟨cs', hcases', hcs', hplace⟩ := exists_lists_of_sameFiles hstems hcs h' hsame hsrc
    refine ⟨cs', hcases', hplace, fun c hc d hd hdc fuel mode base r hr => ?_⟩
    have hfound := (hcs.complete c).1 hc
    have hfound' := (hcs'.complete d).1 hd
    have hlast : ∀ extension ∈ ["src", "in", "rc"],
        extension.toList.getLast? ∉ [none, some 't'] := by
      decide
    exact run_congr_of_failing hdc (fun extension hmem =>
      hfound.companion?_congr h hfound' h' hdc hsame (not_isOut (hlast extension hmem))) hr

/-- A directory with the name of a case that holds one, a file that has no name but the extension,
and a case that expects to fail. -/
def twoCases : List (String × Entry) :=
  [("d.src", .directory [("c.src", .file [])]), (".src", .file []), ("a.src", .file []),
    ("a.rc", .file [0x33])]

theorem proper_twoCases : Proper (.directory twoCases) := by
  refine .directory (by decide) (by simp [twoCases]) ?_
  simp only [twoCases, List.forall_mem_cons, List.not_mem_nil, false_imp_iff, implies_true,
    and_true]
  refine ⟨.directory (by decide) (by simp) ?_, .file, .file, .file⟩
  simp only [List.forall_mem_singleton]
  exact .file

theorem plainStems_twoCases : PlainStems (.directory twoCases) := by
  refine .directory (by simp [twoCases]) ?_
  simp only [twoCases, List.forall_mem_cons, List.not_mem_nil, false_imp_iff, implies_true,
    and_true]
  refine ⟨.directory (by simp) ?_, .file, .file, .file⟩
  simp only [List.forall_mem_singleton]
  exact .file

/-- The case of `twoCases` that lies below. Its program is empty. -/
def lowerCase : Case := { path := ["d.src"], stem := "c", siblings := [("c.src", .file [])] }

/-- The case of `twoCases` that lies at the top. Its program is empty, too, and should return 3. -/
def upperCase : Case := { path := [], stem := "a", siblings := twoCases }

theorem cases_twoCases : cases true (.directory twoCases) = .ok [upperCase, lowerCase] := by
  have hlower : stem? "c.src" = some "c" := by decide +kernel
  have hupper : stem? "a.src" = some "a" := by decide +kernel
  have hhidden : stem? ".src" = none := by decide +kernel
  have hother : stem? "a.rc" = none := by decide +kernel
  have hcollect : collect true [] twoCases twoCases = [lowerCase, upperCase] := by
    simp [twoCases, collect, hlower, hupper, hhidden, hother, lowerCase, upperCase]
  have hle : lowerCase.le upperCase = false := by decide +kernel
  rw [cases, hcollect]
  simp [List.mergeSort, List.MergeSort.Internal.splitInTwo, hle]

theorem produced_lowerCase : lowerCase.produced 1 .both = some (0, "") := by decide +kernel

theorem produced_upperCase : upperCase.produced 1 .both = some (0, "") := by decide +kernel

theorem report_twoCases :
    Proper (.directory twoCases) ∧ PlainStems (.directory twoCases) ∧
      ∃ cs results, cases true (.directory twoCases) = .ok cs ∧
        runAll 1 .both "" cs = some results ∧
        report results =
          "FAIL  a: expected code 3, got 0\nPASS  d.src/c\n1/2 passed\n" := by
  have hproper := proper_twoCases
  have hstems := plainStems_twoCases
  have hpasses : lowerCase.Passes 1 .both :=
    ⟨0, "", produced_lowerCase, by decide +kernel, fun _ => agrees_iff.1 (by decide +kernel)⟩
  have hexpected : upperCase.expected = 3 := by decide +kernel
  have hfails : ¬upperCase.Passes 1 .both := by
    rw [passes_iff produced_upperCase ""]
    simp [Result.passed, Case.result, hexpected]
  have hcount : ([upperCase, lowerCase].countP fun c => decide (c.Passes 1 .both)) = 1 := by
    simp [hpasses, hfails]
  obtain ⟨cs, hcases, -, -, -, hreport, -⟩ := cases_found_and_counted hproper hstems true
  obtain rfl : [upperCase, lowerCase] = cs := Except.ok.inj (cases_twoCases.symm.trans hcases)
  have hends : ∀ c ∈ [upperCase, lowerCase], (c.produced 1 .both).isSome = true := by
    simp [produced_lowerCase, produced_upperCase]
  obtain ⟨results, lines, hresults, -, hlines, htext, -⟩ := hreport 1 .both "" hends
  refine ⟨hproper, hstems, _, results, hcases, hresults, ?_⟩
  obtain ⟨upper, _, hupper, hrest, rfl⟩ := List.forall₂_cons_left_iff.1 hlines
  obtain ⟨lower, _, hlower, hnil, rfl⟩ := List.forall₂_cons_left_iff.1 hrest
  cases hnil
  rcases hupper with ⟨hpass, -⟩ | ⟨-, returned, output, hproduced, rfl⟩
  · exact absurd hpass hfails
  rcases hlower with ⟨-, rfl⟩ | ⟨hfail, -⟩
  · rw [produced_upperCase] at hproduced
    cases hproduced
    rw [htext, hcount, hexpected]
    decide +kernel
  · exact absurd hpasses hfail

end ThreeAddress.Suite
