import ManiOS.Vfs.Runs

/-!
# What a path means

The meaning of a path in a namespace, said without vnodes and without the code:
the path is cleaned, the walk starts at the root or at what is mounted there,
each name is looked up in the first directory of the union that has it, and
where something is mounted at the names walked so far, its members take the
place of what was found.

`ns_resolve` finds just that, in every namespace of every run, and a namespace
and its fork do not see what is later bound in the other (`resolution_meaning`).
-/

namespace ManiOS.Vfs

open ManiOS.Lib List

variable {O : Type}

/-- The file with that name in the first directory that has it. -/
def firstHaving (K : Kinds O) (look : O → CStr → Except Errno O) (name : CStr) (os : List O) :
    Option O :=
  os.findSome? fun o =>
    if K.type o = .dir ∧ K.hasWalk o then (look o name).toOption else none

/-- What is left of a path, from a union that the names of `pre` lead to. -/
def meaningFrom (K : Kinds O) (look : O → CStr → Except Errno O)
    (points : List CStr → Option (List O)) :
    List CStr → List O → List CStr → Option (List O)
  | _, os, [] => some os
  | pre, os, name :: rest => do
      let o ← firstHaving K look name os
      meaningFrom K look points (pre ++ [name]) ((points (pre ++ [name])).getD [o]) rest

/-- What a path means, with these mount points and this root. -/
def meaning (K : Kinds O) (look : O → CStr → Except Errno O)
    (points : List CStr → Option (List O)) (root : List O) (path : CStr) : Option (List O) := do
  let names ← (cleanNames path).toOption
  meaningFrom K look points [] ((points []).getD root) names

/-- The mounts of a namespace. -/
def State.tableOf (s : State O) (i : Nat) : List Nat :=
  (s.space i).elim [] fun n => collect s.nextOf s.brk n.mounts

/-- The files of the root of a namespace. -/
def State.rootOf (s : State O) (i : Nat) : List O :=
  (s.space i).elim [] fun n => s.filesOf [n.root]

/-- What a path resolves to: the files of the location, in order, or an error.
`none` if the call goes wrong. -/
def resolvesTo (K : Kinds O) (fs : Fs O) (i : Nat) (path : CStr) (s : State O) :
    Option (Except Errno (List O)) :=
  (nsResolve K fs i path s).map fun r => r.1.map fun lc => r.2.filesOf lc.1

section Meaning

variable {K : Kinds O} {look : O → CStr → Except Errno O} {points : List CStr → Option (List O)}

theorem lookFrom_toOption (name : CStr) (os : List O) :
    ∀ rc, (lookFrom K look name rc os).toOption = firstHaving K look name os := by
  induction os with
  | nil => exact fun rc => rfl
  | cons o os ih =>
    intro rc
    unfold firstHaving
    rw [lookFrom, findSome?_cons]
    by_cases hdir : K.type o = .dir ∧ K.hasWalk o = true
    · rw [if_neg (by simp [hdir]), if_pos hdir]
      cases look o name with
      | ok o' => rfl
      | error e => exact ih e
    · rw [if_pos (by simpa [Classical.or_iff_not_imp_left] using hdir), if_neg hdir]
      exact ih rc

theorem lookPath_toOption (names : List CStr) :
    ∀ (pre : List CStr) (os : List O), (lookPath K look points pre os names).toOption =
      meaningFrom K look points pre os names := by
  induction names with
  | nil => exact fun pre os => rfl
  | cons name rest ih =>
    intro pre os
    rw [lookPath, meaningFrom, ← lookFrom_toOption name os .enotdir]
    cases lookFrom K look name .enotdir os with
    | error e => rfl
    | ok o => exact ih _ _

theorem lookNames_toOption (root : List O) (path : CStr) :
    ((cleanNames path).bind (lookNames K look points root)).toOption =
      meaning K look points root path := by
  unfold meaning
  cases cleanNames path with
  | error e => rfl
  | ok names => exact lookPath_toOption names [] _

end Meaning

section Resolves

variable {K : Kinds O} {fs : Fs O} {look : O → CStr → Except Errno O} {s s' s₀ : State O}
  {tbl tbl' : Nat → List Nat} {i j : Nat} {n : Namespace}

theorem Rep.tableOf (h : Rep s tbl) (hf : s.Fresh) (hn : s.space i = some n) :
    s.tableOf i = tbl i := by
  unfold State.tableOf
  rw [hn]
  exact (h.linked i n hn).collect_eq (h.length_le hf hn)

theorem rootOf_eq (hn : s.space i = some n) : s.rootOf i = s.filesOf [n.root] := by
  unfold State.rootOf
  rw [hn]
  rfl

theorem State.Files.filesOf {loc : Location} {os : List O} (h : s.Files loc os) :
    s.filesOf loc = os := by
  induction h with
  | nil => rfl
  | cons ho _ ih =>
    unfold State.filesOf at ih ⊢
    rw [filterMap_cons_some ho, ih]

theorem Sound.resolvesTo (h : Sound K s tbl []) (hn : s.space i = some n) (hfs : fs.Shows look)
    (path : CStr) : resolvesTo K fs i path s = some ((cleanNames path).bind
      (lookNames K look (s.points (s.tableOf i)) (s.rootOf i))) := by
  obtain ⟨r, s', hrun, -, -, -, hvalue⟩ := goes_nsResolve h.rep h.acct hn path
  have hl := hvalue look hfs
  rw [h.rep.tableOf h.acct.fresh hn, rootOf_eq hn]
  unfold Vfs.resolvesTo
  rw [hrun, Option.map_some]
  refine congrArg some ?_
  generalize (cleanNames path).bind _ = v at hl
  cases r with
  | error e =>
    cases v with
    | error e' => exact congrArg _ hl
    | ok os => exact hl.elim
  | ok lc =>
    cases v with
    | error e' => exact hl.elim
    | ok os => exact congrArg Except.ok (State.Files.filesOf hl)

theorem mounted_map (l : List Nat) (canon : CStr) :
    s.mounted l canon = ((l.map s.entry).find? fun p => p.1 = canon).map Prod.snd := by
  rw [find?_map, Option.map_map]
  rfl

theorem points_congr {l l' : List Nat} (he : l'.map s'.entry = l.map s.entry)
    (hfiles : ∀ p ∈ l, ∀ v ∈ (s.entry p).2, s'.fileOf v = s.fileOf v) :
    s'.points l' = s.points l := by
  funext names
  unfold State.points
  rw [mounted_map, he, ← mounted_map]
  cases hm : s.mounted l (render names) with
  | none => rfl
  | some loc =>
    obtain ⟨p, hp, rfl⟩ := Option.map_eq_some_iff.mp hm
    exact congrArg some (filterMap_congr fun v hv =>
      hfiles p (mem_of_find?_eq_some hp) v hv)

theorem Sound.resolvesTo_congr {n' : Namespace} (hs : Sound K s tbl []) (hs' : Sound K s' tbl' [])
    (hn : s.space i = some n) (hn' : s'.space j = some n') (hroot : n'.root = n.root)
    (hrootfile : s'.fileOf n.root = s.fileOf n.root)
    (hmap : (tbl' j).map s'.entry = (tbl i).map s.entry)
    (hfiles : ∀ p ∈ tbl i, ∀ v ∈ (s.entry p).2, s'.fileOf v = s.fileOf v) (hfs : fs.Shows look)
    (path : CStr) : Vfs.resolvesTo K fs j path s' = Vfs.resolvesTo K fs i path s := by
  have hroots : s'.filesOf [n'.root] = s.filesOf [n.root] := by
    rw [hroot]
    refine filterMap_congr fun v hv => ?_
    rw [mem_singleton.mp hv, hrootfile]
  rw [hs'.resolvesTo hn' hfs, hs.resolvesTo hn hfs, hs'.rep.tableOf hs'.acct.fresh hn',
    hs.rep.tableOf hs.acct.fresh hn, rootOf_eq hn, rootOf_eq hn', points_congr hmap hfiles, hroots]

theorem Keeps.resolvesTo (h : Keeps j s tbl s' tbl') (hs : Sound K s tbl [])
    (hs' : Sound K s' tbl' []) (hn : s.space j = some n) (hfs : fs.Shows look) (path : CStr) :
    Vfs.resolvesTo K fs j path s' = Vfs.resolvesTo K fs j path s := by
  have hr := h.root
  rw [hn] at hr
  obtain ⟨n', hn', hroot⟩ := Option.map_eq_some_iff.mp hr
  refine hs.resolvesTo_congr hs' hn hn' hroot (h.files _ (.inl ⟨n, hn, rfl⟩)) ?_
    (fun p hp v hv => h.files v (.inr ⟨p, hp, hv⟩)) hfs path
  rw [h.table]
  exact map_congr_left h.entry

/-- A step that is not to change the table of `j`, with `j` still there after. -/
def Elsewhere (K : Kinds O) (j : Nat) (e : Event O) (s s' : State O) : Prop :=
  Step K e s s' ∧ e.target ≠ some j ∧ (s'.space j).isSome

theorem Reached.keeps (hs : Sound K s tbl []) (hn : s.space j = some n)
    (h : Reached (Elsewhere K j) s s') :
    ∃ tbl', Sound K s' tbl' [] ∧ Keeps j s tbl s' tbl' ∧ s'.space j ≠ none := by
  refine h.invariant (P := fun s' => ∃ tbl', Sound K s' tbl' [] ∧ Keeps j s tbl s' tbl' ∧
    s'.space j ≠ none) ⟨tbl, hs, .refl j s tbl, by simp [hn]⟩ ?_
  rintro e s₁ s₂ ⟨tbl1, h1, hk1, hj1⟩ ⟨⟨ha, hrun⟩, htarget, hj2⟩
  obtain ⟨tbl2, h2, hk2⟩ := (goes_event h1 ha).outcome hrun
  have hj₂' : s₂.space j ≠ none := Option.isSome_iff_ne_none.mp hj2
  exact ⟨tbl2, h2, hk1.trans (hk2 j htarget hj1 hj₂'), hj₂'⟩

end Resolves

/-- In every namespace of every run, `ns_resolve` finds what the path means.  A
fork starts with the same meaning, and as long as nothing is bound, mounted or
unbound in one of the two itself, no path in it comes to mean something else. -/
theorem resolution_meaning (K : Kinds O) {s₀ s : State O} (h₀ : Boot K s₀)
    (h : Reached (Step K) s₀ s) {i : Nat} {n : Namespace} (hn : s.space i = some n) :
    (∀ fs look, fs.Shows look → ∀ path, ∃ r, resolvesTo K fs i path s = some r ∧
      r.toOption = meaning K look (s.points (s.tableOf i)) (s.rootOf i) path) ∧
    ∀ k s₁, nsFork K i s = some (some k, s₁) → k ≠ i ∧
      ∀ fs look, fs.Shows look → ∀ path,
        resolvesTo K fs k path s₁ = resolvesTo K fs i path s ∧
        ∀ j, j = i ∨ j = k → ∀ s₂, Reached (Elsewhere K j) s₁ s₂ →
          resolvesTo K fs j path s₂ = resolvesTo K fs j path s₁ := by
  obtain ⟨tbl, hs⟩ := Reached.sound h₀ h
  refine ⟨fun fs look hfs path => ⟨_, hs.resolvesTo hn hfs path, lookNames_toOption _ path⟩,
    fun k s₁ hfork => ?_⟩
  obtain ⟨tbl1, k', hs1, hk', hl, hfrom⟩ := (goes_nsFork hs hn).outcome hfork
  obtain ⟨rfl, ⟨n1, hn1, hroot⟩, hmap⟩ := hfrom k rfl
  have hik : i ≠ k := by
    rintro rfl
    rw [hk'] at hn
    cases hn
  have hkeep := hl.keeps i hik
  refine ⟨hik.symm, fun fs look hfs path => ⟨hs.resolvesTo_congr hs1 hn hn1 hroot
    (hkeep.files _ (.inl ⟨n, hn, rfl⟩)) hmap (fun p hp v hv => hkeep.files v (.inr ⟨p, hp, hv⟩))
    hfs path, fun j hj s₂ hrun => ?_⟩⟩
  have hnj : ∃ m, s₁.space j = some m := by
    rcases hj with rfl | rfl
    · exact ⟨n, (hl.space j hik).trans hn⟩
    · exact ⟨n1, hn1⟩
  obtain ⟨m, hm⟩ := hnj
  obtain ⟨tbl2, hs2, hkeeps, -⟩ := Reached.keeps hs1 hm hrun
  exact hkeeps.resolvesTo hs1 hs2 hm hfs path

theorem sampleFs_shows : sampleFs.Shows sampleLook := by
  intro t a v n name _ hv
  simp only [sampleFs, hv]
  cases sampleLook n.file name <;> rfl

theorem resolution_meaning_sample : ∃ s, runCalls sampleKinds sampleRun sampleBoot = some s ∧
    ∃ r, resolvesTo sampleKinds sampleFs 1 [47, 98] s = some r ∧ r.toOption =
      meaning sampleKinds sampleLook (s.points (s.tableOf 1)) (s.rootOf 1) [47, 98] := by
  have hrun : (runCalls sampleKinds sampleRun sampleBoot).any
      (fun s => (s.space 1).isSome) = true := by decide +kernel
  cases hs : runCalls sampleKinds sampleRun sampleBoot with
  | none =>
    rw [hs] at hrun
    cases hrun
  | some s =>
    rw [hs] at hrun
    obtain ⟨n, hn⟩ := Option.isSome_iff_exists.mp hrun
    exact ⟨s, rfl, (resolution_meaning sampleKinds sampleBoot_boot
      (runCalls_reached .start hs) hn).1 sampleFs sampleLook sampleFs_shows _⟩

end ManiOS.Vfs
