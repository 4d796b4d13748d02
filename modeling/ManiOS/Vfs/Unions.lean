import ManiOS.Vfs.Meaning

/-!
# Errors of unions

A name is looked up in the members of a union in order, and when none of them
has it the answer is that of the last member that was asked.  If an earlier
member failed in another way, that error is lost.  `vfs_open` takes the answer
`-ENOENT` for leave to create the file.

So the error is reported if and only if the last member asked does not answer
`-ENOENT` (`union_errors_reported`).
-/

namespace ManiOS.Vfs

open ManiOS.Lib

variable {O : Type}

/-- The members of a union that are asked for a name. -/
def asked (K : Kinds O) (os : List O) : List O :=
  os.filter fun o => K.type o = .dir && K.hasWalk o

/-- The union and the name that a walk ends at: no member has the name. -/
def stopsFrom (K : Kinds O) (look : O → CStr → Except Errno O)
    (points : List CStr → Option (List O)) :
    List CStr → List O → List CStr → Option (List O × CStr)
  | _, _, [] => none
  | pre, os, name :: rest =>
    match firstHaving K look name os with
    | none => some (os, name)
    | some o => stopsFrom K look points (pre ++ [name]) ((points (pre ++ [name])).getD [o]) rest

/-- The union and the name that a path ends at. -/
def stopsAt (K : Kinds O) (look : O → CStr → Except Errno O)
    (points : List CStr → Option (List O)) (root : List O) (path : CStr) :
    Option (List O × CStr) := do
  let names ← (cleanNames path).toOption
  stopsFrom K look points [] ((points []).getD root) names

section Unions

variable {K : Kinds O} {look : O → CStr → Except Errno O} {points : List CStr → Option (List O)}
  {os : List O} {name : CStr}

theorem asked_cons (o : O) (os : List O) : asked K (o :: os) =
    if K.type o = .dir ∧ K.hasWalk o then o :: asked K os else asked K os := by
  simp [asked, List.filter_cons]

/-- If no member has the name, the last one asked says why. -/
theorem lookFrom_error (os : List O) :
    ∀ rc, firstHaving K look name os = none → lookFrom K look name rc os =
      ((asked K os).getLast?.elim (.error rc) fun o => look o name) := by
  induction os with
  | nil => exact fun rc _ => rfl
  | cons o os ih =>
    intro rc hnone
    unfold firstHaving at hnone
    rw [List.findSome?_cons] at hnone
    by_cases hdir : K.type o = .dir ∧ K.hasWalk o = true
    · rw [if_pos hdir] at hnone
      rw [lookFrom, if_neg (by simp [hdir]), asked_cons, if_pos hdir, List.getLast?_cons]
      cases hl : look o name with
      | ok o' =>
        rw [hl] at hnone
        cases hnone
      | error e =>
        rw [hl] at hnone
        simp only
        rw [ih e hnone]
        cases (asked K os).getLast? with
        | none => exact hl.symm
        | some o' => rfl
    · rw [if_neg hdir] at hnone
      rw [lookFrom, if_pos (by simpa [Classical.or_iff_not_imp_left] using hdir), asked_cons,
        if_neg hdir]
      exact ih rc hnone

theorem lookPath_stops (names : List CStr) :
    ∀ (pre : List CStr) (os0 : List O), stopsFrom K look points pre os0 names = some (os, name) →
      firstHaving K look name os = none ∧
      ∃ e, lookFrom K look name .enotdir os = .error e ∧
        lookPath K look points pre os0 names = .error e := by
  induction names with
  | nil => exact fun pre os0 hs => nomatch hs
  | cons first rest ih =>
    intro pre os0 hs
    have ht : (lookFrom K look first .enotdir os0).toOption = firstHaving K look first os0 :=
      lookFrom_toOption first os0 .enotdir
    rw [stopsFrom] at hs
    rw [lookPath]
    cases hf : firstHaving K look first os0 with
    | none =>
      rw [hf] at hs ht
      cases hs
      cases hl : lookFrom K look name .enotdir os with
      | ok o =>
        rw [hl] at ht
        cases ht
      | error e => exact ⟨hf, e, rfl, rfl⟩
    | some o =>
      rw [hf] at hs ht
      cases hl : lookFrom K look first .enotdir os0 with
      | error e =>
        rw [hl] at ht
        cases ht
      | ok o' =>
        rw [hl] at ht
        cases ht
        exact ih _ _ hs

end Unions

/-- `"/a"`, which cannot be read, and `"/b"` in one union at `"/b"`. -/
def sampleUnion (flag : BindFlag) : List (Call Nat) :=
  [.nsCreate 0, .bind sampleFs 1 [47, 97] [47, 98] flag]

/-- With `"/a"` first the answer for `"/b/x"` is `-ENOENT`, although `"/a"` could
not be read, and `vfs_open` creates the file there. -/
theorem union_error_masked : ∃ s, runCalls sampleKinds (sampleUnion .before) sampleBoot = some s ∧
    stopsAt sampleKinds sampleLook (s.points (s.tableOf 1)) (s.rootOf 1) [47, 98, 47, 120] =
      some ([1, 2], [120]) ∧ sampleLook 1 [120] = .error .eio ∧
    resolvesTo sampleKinds sampleFs 1 [47, 98, 47, 120] s = some (.error .enoent) ∧
    (vfsOpen sampleKinds sampleFs 1 [47, 98, 47, 120] (oCreat ||| 1) s).map (fun r => r.2.made) =
      some [(1, [120])] := by
  have hrun : (runCalls sampleKinds (sampleUnion .before) sampleBoot).any (fun s => decide (
      stopsAt sampleKinds sampleLook (s.points (s.tableOf 1)) (s.rootOf 1) [47, 98, 47, 120] =
        some ([1, 2], [120]) ∧
      sampleLook 1 [120] = .error .eio ∧
      resolvesTo sampleKinds sampleFs 1 [47, 98, 47, 120] s = some (.error .enoent) ∧
      (vfsOpen sampleKinds sampleFs 1 [47, 98, 47, 120] (oCreat ||| 1) s).map
        (fun r => r.2.made) = some [(1, [120])])) = true := by decide +kernel
  obtain ⟨s, hs, hs'⟩ := (Option.any_eq_true ..).mp hrun
  exact ⟨s, hs, of_decide_eq_true hs'⟩

/-- If no member of a union has a name and some member asked for it fails other
than with `-ENOENT`, then a path that ends there is reported otherwise too, and
`vfs_open` creates nothing, if and only if the last member asked does not answer
`-ENOENT`. -/
theorem union_errors_reported (K : Kinds O) {s₀ s : State O} (h₀ : Boot K s₀)
    (h : Reached (Step K) s₀ s) {i : Nat} {n : Namespace} (hn : s.space i = some n) {fs : Fs O}
    {look : O → CStr → Except Errno O} (hfs : fs.Shows look) {path name : CStr} {os : List O}
    (hstop : stopsAt K look (s.points (s.tableOf i)) (s.rootOf i) path = some (os, name))
    (hfails : ∃ o ∈ asked K os, ∃ e, look o name = .error e ∧ e ≠ .enoent) :
    ((∃ e, resolvesTo K fs i path s = some (.error e) ∧ e ≠ .enoent) ∧
      ∀ mode, ∃ r s', vfsOpen K fs i path mode s = some (r, s') ∧ s'.made = s.made) ↔
    ∀ o, (asked K os).getLast? = some o → look o name ≠ .error .enoent := by
  obtain ⟨tbl, hs⟩ := Reached.sound h₀ h
  obtain ⟨last, hl⟩ : ∃ o, (asked K os).getLast? = some o := by
    obtain ⟨o, ho, -⟩ := hfails
    exact ⟨_, List.getLast?_eq_some_getLast (List.ne_nil_of_mem ho)⟩
  obtain ⟨e, he, hlook⟩ : ∃ e, (cleanNames path).bind (lookNames K look (s.points (s.tableOf i))
      (s.rootOf i)) = .error e ∧ look last name = .error e := by
    unfold stopsAt at hstop
    cases hc : cleanNames path with
    | error e =>
      rw [hc] at hstop
      cases hstop
    | ok names =>
      rw [hc] at hstop
      obtain ⟨hnone, e, hlook, hpath⟩ := lookPath_stops names [] _ hstop
      rw [lookFrom_error os .enotdir hnone, hl] at hlook
      exact ⟨e, hpath, hlook⟩
  have hres : resolvesTo K fs i path s = some (.error e) := by rw [hs.resolvesTo hn hfs, he]
  constructor
  · rintro ⟨⟨e', he', hne⟩, -⟩ o ho henoent
    cases hl.symm.trans ho
    cases hlook.symm.trans henoent
    cases hres.symm.trans he'
    exact hne rfl
  · intro hlast
    have hne : e ≠ .enoent := fun heq => hlast last hl (heq ▸ hlook)
    refine ⟨⟨e, hres, hne⟩, fun mode => ?_⟩
    obtain ⟨r, s', hrun, -, -, -, hmade⟩ := goes_vfsOpen hs hn path mode
    refine ⟨r, s', hrun, by_contra fun hc => ?_⟩
    have hnowhere := (hmade hc).2 look hfs
    rw [← hs.rep.tableOf hs.acct.fresh hn, ← rootOf_eq hn, he] at hnowhere
    cases hnowhere
    exact hne rfl

/-- With `"/a"` last its error is reported. -/
theorem union_errors_reported_sample :
    ∃ s, runCalls sampleKinds (sampleUnion .after) sampleBoot = some s ∧
    (∃ e, resolvesTo sampleKinds sampleFs 1 [47, 98, 47, 120] s = some (.error e) ∧ e ≠ .enoent) ∧
    ∀ mode, ∃ r s', vfsOpen sampleKinds sampleFs 1 [47, 98, 47, 120] mode s = some (r, s') ∧
      s'.made = s.made := by
  have hrun : (runCalls sampleKinds (sampleUnion .after) sampleBoot).any (fun s => decide (
      (s.space 1).isSome ∧
      stopsAt sampleKinds sampleLook (s.points (s.tableOf 1)) (s.rootOf 1) [47, 98, 47, 120] =
        some ([2, 1], [120]))) = true := by decide +kernel
  obtain ⟨s, hs, hs'⟩ := (Option.any_eq_true ..).mp hrun
  obtain ⟨hsome, hstop⟩ := of_decide_eq_true hs'
  obtain ⟨n, hn⟩ := Option.isSome_iff_exists.mp hsome
  refine ⟨s, hs, (union_errors_reported sampleKinds sampleBoot_boot (runCalls_reached .start hs) hn
    sampleFs_shows hstop ⟨1, by decide, .eio, rfl, by decide⟩).mpr ?_⟩
  intro o ho
  cases ho
  decide

end ManiOS.Vfs
