import ManiOS.Lib.Runs
import ManiOS.Lib.Words

/-!
# Paths on drives

`dosrun` maps a DOS path to a path of ManiOS.  A drive letter names a directory,
each drive has a current directory, and a DOS path is taken apart at both slashes,
freed of `.` and `..`, put after the drive's root and written in lower case.
`dos_guest_path` goes back, by the longest root that the path is under.

The path that comes out is the drive's root or a path under it, and it is the
root followed by the normalised names (`dosPath_eq`).  A path under a root comes
back from its DOS form (`guest_round_trip`).  Both need roots without backslashes:
one in a root becomes a slash like those of the path (`root_left`).

Strings are lists of bytes without their NUL.
-/

namespace ManiOS.Dos.Paths

open ManiOS.Lib List

abbrev CStr := List UInt8

def slash : UInt8 := 47
def backslash : UInt8 := 92
def colon : UInt8 := 58
def dot : CStr := [46]
def dotDot : CStr := [46, 46]

variable (c : UInt8)

def isUpper : Bool := 65 ≤ c && c ≤ 90
def isLower : Bool := 97 ≤ c && c ≤ 122
def isAlpha : Bool := isLower c || isUpper c
def toLower : UInt8 := if isUpper c then c + 32 else c
def toUpper : UInt8 := if isLower c then c - 32 else c

/-- The separators of a DOS path. -/
def isSep : Bool := c == backslash || c == slash

/-! ## The drives -/

/-- `struct mount`. -/
structure Mount where
  root : CStr
  cwd : CStr
  present : Bool

structure Drives where
  mounts : Fin 26 → Mount
  current : Fin 26

/-- The drive that a letter and a colon at the start of a path name, and the path
after them. -/
def drivePart : CStr → Option (Fin 26) × CStr
  | a :: b :: rest =>
    if isAlpha a && b == colon then (some (Fin.ofNat 26 ((toUpper a).toNat - 65)), rest)
    else (none, a :: b :: rest)
  | path => (none, path)

/-- The parts of the path's buffer that `dos_path` works in. -/
def workSize : Nat := 512

/-- `strrchr(out, '/')` and all after it are cut off, if there is one. -/
def upOne (out : CStr) : CStr :=
  if slash ∈ out then ((out.reverse.dropWhile (· ≠ slash)).drop 1).reverse else out

/-- The loop of `dos_path` over the names. -/
def walk (out : CStr) : List CStr → Option CStr
  | [] => some out
  | p :: ps =>
    if p = dot then walk out ps
    else if p = dotDot then walk (upOne out) ps
    else if out.length + 2 + p.length ≥ workSize then none
    else walk (out ++ slash :: p) ps

/-- A drive's root before a path under it: nothing for `/`. -/
def stem (root : CStr) : CStr := if root = [slash] then [] else root

/-- A byte of the path as it is handed out. -/
def fold : UInt8 := if c = backslash then slash else toLower c

/-- A slash as DOS writes it. -/
def toBackslash : UInt8 := if c = slash then backslash else c

namespace Drives

variable (d : Drives)

/-- The string whose names `dos_path` walks over. -/
def work (m : Mount) (inp : CStr) : Option CStr :=
  if inp.head? ≠ some slash ∧ inp.head? ≠ some backslash ∧ m.cwd ≠ [] then
    if (m.cwd ++ slash :: inp).length ≥ workSize then none else some (m.cwd ++ slash :: inp)
  else if inp.length ≥ workSize then none else some inp

/-- `dos_path` on a buffer of `n` bytes. -/
def dosPath (n : Nat) (path : CStr) : Option CStr :=
  let inp := (drivePart path).2
  let drive := (drivePart path).1.getD d.current
  if (drivePart path).1 = none ∧ inp.head? = some slash then some path
  else if (d.mounts drive).present = false then none
  else
    ((work (d.mounts drive) inp).bind fun w => walk [] (words isSep w)).bind fun out =>
      let host := stem (d.mounts drive).root ++ out
      if host.length ≥ n then none
      else
        let host := host.map fold
        some (if host = [] then [slash].take (n - 1) else host)

/-- The length of a root without the slashes at its end. -/
def rootLen (root : CStr) : Nat :=
  max (min root.length 1) (root.reverse.dropWhile (· = slash)).length

/-- The test of `dos_guest_path`: the path is under the root. -/
def fits (host root : CStr) : Bool :=
  let len := rootLen root
  host.take len == root.take len &&
    ((len == 1 && root.head? == some slash) || host[len]? == none || host[len]? == some slash)

/-- The loop of `dos_guest_path`: the drive with the longest root so far, and the
length of its root. -/
def longest (host : CStr) : List (Fin 26) → Option (Fin 26) × Nat → Option (Fin 26) × Nat
  | [], best => best
  | i :: is, best =>
    if (d.mounts i).present && fits host (d.mounts i).root
        && best.2 < rootLen (d.mounts i).root then
      longest host is (some i, rootLen (d.mounts i).root)
    else longest host is best

/-- `dos_guest_path` with a buffer of `n` bytes. -/
def dosGuestPath (n : Nat) (host : CStr) : Option CStr :=
  match d.longest host (List.finRange 26) (none, 0) with
  | (none, _) => none
  | (some best, len) =>
    let relative := (host.drop len).dropWhile (· = slash)
    if relative.length + 4 > n then none
    else
      some (UInt8.ofNat (65 + best.val) :: colon :: backslash :: relative.map toBackslash)

def dosSetDrive (drive : Fin 26) : Option Drives :=
  if (d.mounts drive).present then some { d with current := drive } else none

/-- `dos_chdir`; `isDir` says what `stat` finds to be a directory. -/
def dosChdir (isDir : CStr → Bool) (path : CStr) : Option Drives :=
  let drive := (drivePart path).1.getD d.current
  let m := d.mounts drive
  if m.present = false ∨ path.length ≥ workSize then none
  else
    (d.dosPath workSize path).bind fun mapped =>
      let relative := (mapped.drop m.root.length).dropWhile (· = slash)
      if isDir mapped = false ∨ mapped.take m.root.length ≠ m.root ∨
          (m.root ≠ [slash] ∧ mapped[m.root.length]? ≠ none ∧
            mapped[m.root.length]? ≠ some slash) ∨ relative.length ≥ 64 then none
      else
        some { d with mounts := fun i =>
          if i = drive then { m with cwd := relative } else d.mounts i }

/-- `dos_getcwd` with a buffer of `n` bytes. -/
def dosGetcwd (drive : Fin 26) (n : Nat) : Option CStr :=
  let m := d.mounts drive
  if m.present = false ∨ m.cwd.length ≥ n then none
  else some (m.cwd.map fun c => if c = slash then backslash else toUpper c)

end Drives

/-! ## Bytes and names -/

variable {ns : List CStr} {vs : List CStr} {root : CStr} {c : UInt8} {n : CStr} {p : CStr}

theorem toLower_eq_iff (hc : isAlpha c = false) (x : UInt8) : toLower x = c ↔ x = c := by
  unfold toLower
  split_ifs with h
  · unfold isAlpha isLower isUpper at *
    simp only [Bool.and_eq_true, decide_eq_true_eq] at h
    simp only [Bool.or_eq_false_iff, Bool.and_eq_false_iff, decide_eq_false_iff_not] at hc
    constructor
    · intro hx
      grind
    · intro hx
      grind
  · exact .rfl

def components (p : CStr) : List CStr := words (· == slash) p

/-- A name that is neither `.` nor `..`. -/
structure IsName (n : CStr) : Prop where
  word : IsWord (· == slash) n
  not_dot : n ≠ dot
  not_dotDot : n ≠ dotDot

def render (ns : List CStr) : CStr := if ns = [] then [slash] else slashed slash ns

def Clean (p : CStr) : Prop := ∃ ns, (∀ n ∈ ns, IsName n) ∧ p = render ns

def LowerCase (p : CStr) : Prop := ∀ c ∈ p, toLower c = c

/-- `host` is the root or goes on after it with a slash. -/
def Under (root host : CStr) : Prop := host = root ∨ ∃ rest, host = stem root ++ slash :: rest

/-- The names freed of `.` and `..`, after those of `stack`. -/
def normalise : List CStr → List CStr → List CStr
  | stack, [] => stack
  | stack, p :: ps =>
    if p = dot then normalise stack ps
    else if p = dotDot then normalise stack.dropLast ps
    else normalise (stack ++ [p]) ps

def hostPath (root : CStr) (ns : List CStr) : CStr :=
  if stem root ++ slashed slash ns = [] then [slash] else stem root ++ slashed slash ns

theorem slashed_ne_nil (h : ns ≠ []) : slashed slash ns ≠ [] := by
  cases ns with
  | nil => exact absurd rfl h
  | cons n ns => simp

section

variable (hns : ∀ n ∈ ns, IsName n)
include hns

theorem slashed_ne_root : slashed slash ns ≠ [slash] := by
  cases ns with
  | nil => simp
  | cons n ns =>
    intro h
    have hnil := (cons.inj h).2
    exact (hns n mem_cons_self).word.ne_nil (append_eq_nil_iff.mp hnil).1

theorem stem_render : stem (render ns) = slashed slash ns := by
  unfold render stem
  split_ifs with hnil hroot hroot
  · rw [hnil]
    rfl
  · exact absurd rfl hroot
  · exact absurd hroot (slashed_ne_root hns)
  · rfl

theorem hostPath_render : hostPath (render ns) vs = render (ns ++ vs) := by
  unfold hostPath
  rw [stem_render hns, ← slashed_append]
  by_cases hnil : ns ++ vs = []
  · rw [hnil, if_pos (slashed_nil slash)]
    rfl
  · rw [if_neg (slashed_ne_nil hnil), render, if_neg hnil]

theorem components_render : components (render ns) = ns := by
  unfold components render
  split_ifs with hnil
  · rw [hnil]
    rfl
  · exact words_slashed rfl ns fun n hn => (hns n hn).word

end

/-! ## The walk over the names -/

theorem upOne_slashed {stack : List CStr} (h : ∀ w ∈ stack, slash ∉ w) :
    upOne (slashed slash stack) = slashed slash stack.dropLast := by
  induction stack using reverseRecOn with
  | nil => rfl
  | append_singleton init w _ =>
    have hw : slash ∉ w := h w (mem_append_right _ (mem_singleton_self w))
    have hrev : ∀ c ∈ w.reverse, c ≠ slash := fun c hc hcs =>
      hw (hcs ▸ mem_reverse.mp hc)
    rw [slashed_append, slashed_cons, slashed_nil, append_nil, dropLast_concat]
    unfold upOne
    rw [if_pos (mem_append_right _ mem_cons_self), reverse_append,
      reverse_cons, append_assoc,
      dropWhile_append_of_pos fun c hc => decide_eq_true (hrev c hc)]
    simp

theorem walk_eq {ps : List CStr} {out : CStr} (hps : ∀ p ∈ ps, slash ∉ p) : ∀ stack : List CStr,
    (∀ w ∈ stack, slash ∉ w) → walk (slashed slash stack) ps = some out →
      out = slashed slash (normalise stack ps) := by
  induction ps with
  | nil =>
    intro stack _ h
    exact (Option.some.inj h).symm
  | cons p ps ih =>
    intro stack hstack h
    have ih := ih (forall_mem_cons.mp hps).2
    unfold walk at h
    unfold normalise
    split_ifs at h ⊢ with hdot hdd hlong
    · exact ih stack hstack h
    · rw [upOne_slashed hstack] at h
      exact ih _ (fun w hw => hstack w (dropLast_subset _ hw)) h
    · have hsnoc : slashed slash stack ++ slash :: p = slashed slash (stack ++ [p]) := by
        rw [slashed_append, slashed_cons, slashed_nil, append_nil]
      rw [hsnoc] at h
      exact ih _ (forall_mem_append.mpr ⟨hstack, forall_mem_singleton.mpr (hps p mem_cons_self)⟩) h

variable {host w : CStr}

theorem mem_normalise {ps : List CStr} : ∀ {stack : List CStr}, w ∈ normalise stack ps →
    w ∈ stack ∨ (w ∈ ps ∧ w ≠ dot ∧ w ≠ dotDot) := by
  induction ps with
  | nil => exact fun h => .inl h
  | cons p ps ih =>
    intro stack h
    unfold normalise at h
    split_ifs at h with hdot hdd
    · exact (ih h).imp_right (.imp_left (mem_cons_of_mem _))
    · exact (ih h).imp (fun h => dropLast_subset _ h) (.imp_left (mem_cons_of_mem _))
    · rcases ih h with h | ⟨h, hne⟩
      · rcases mem_append.mp h with h | h
        · exact .inl h
        · rw [mem_singleton.mp h]
          exact .inr ⟨mem_cons_self, hdot, hdd⟩
      · exact .inr ⟨mem_cons_of_mem _ h, hne⟩

/-! ## What comes out -/

def lower (n : CStr) : CStr := n.map toLower

theorem lower_isName (h : IsName n) : IsName (lower n) := by
  have hmap : ∀ m : CStr, (∀ c ∈ m, isAlpha c = false) → lower n = m → n = m := by
    intro m hm hn
    subst hn
    refine (map_congr_left (g := id) fun c hc => ?_).trans (map_id n) |>.symm
    exact ((toLower_eq_iff (hm _ (mem_map_of_mem hc)) c).mp rfl).symm
  refine ⟨⟨?_, fun c hc => ?_⟩, fun hdot => ?_, fun hdd => ?_⟩
  · simpa [lower] using h.word.ne_nil
  · obtain ⟨x, hx, rfl⟩ := mem_map.mp hc
    have hne := h.word.clear x hx
    rw [beq_eq_false_iff_ne] at hne ⊢
    exact fun hx' => hne ((toLower_eq_iff rfl x).mp hx')
  · exact h.not_dot (hmap dot (by decide +kernel) hdot)
  · exact h.not_dotDot (hmap dotDot (by decide +kernel) hdd)

/-- A path of ManiOS that `fold` leaves alone. -/
structure GoodRoot (root : CStr) : Prop where
  clean : Clean root
  lowerCase : LowerCase root
  plain : backslash ∉ root

theorem fold_of_ne (h : c ≠ backslash) : fold c = toLower c := if_neg h

theorem map_fold_plain (hlower : LowerCase p) (hplain : backslash ∉ p) : p.map fold = p := by
  refine (map_congr_left (g := id) fun c hc => ?_).trans (map_id p)
  rw [fold_of_ne fun hcb => hplain (hcb ▸ hc)]
  exact hlower c hc

theorem map_fold_slashed (hns : ∀ n ∈ ns, backslash ∉ n) :
    (slashed slash ns).map fold = slashed slash (ns.map lower) := by
  induction ns with
  | nil => rfl
  | cons n ns ih =>
    have hn : n.map fold = lower n := map_congr_left fun c hc =>
      fold_of_ne fun hcb => hns n mem_cons_self (hcb ▸ hc)
    rw [slashed_cons, map_cons, map_append, hn,
      ih (forall_mem_cons.mp hns).2, map_cons, slashed_cons]
    rfl

theorem isWord_slash (h : IsWord isSep n) : IsWord (· == slash) n ∧ backslash ∉ n := by
  refine ⟨⟨h.ne_nil, fun c hc => ?_⟩, fun hb => ?_⟩
  · have hsep := h.clear c hc
    unfold isSep at hsep
    exact (Bool.or_eq_false_iff.mp hsep).2
  · exact absurd (h.clear backslash hb) (by decide)

theorem stem_plain (h : GoodRoot root) : (stem root).map fold = stem root := by
  unfold stem
  split_ifs
  · rfl
  · exact map_fold_plain h.lowerCase h.plain

namespace Drives

variable {d : Drives}

def driveOf (d : Drives) (path : CStr) : Fin 26 := (drivePart path).1.getD d.current

/-- The names of a DOS path: those of the current directory first, unless it
starts with a slash after the drive. -/
def namesOf (d : Drives) (path : CStr) : List CStr :=
  let inp := (drivePart path).2
  (if inp.head? = some slash ∨ inp.head? = some backslash then []
    else words isSep (d.mounts (d.driveOf path)).cwd) ++ words isSep inp

theorem words_work {m : Mount} {inp : CStr} (h : work m inp = some w) :
    words isSep w = (if inp.head? = some slash ∨ inp.head? = some backslash then []
      else words isSep m.cwd) ++ words isSep inp := by
  unfold work at h
  split_ifs at h with hrel hlong hlong
  · cases h
    rw [if_neg (by tauto)]
    exact words_append_sep (by decide) _ _
  · cases h
    split_ifs with habs
    · rfl
    · have hcwd : m.cwd = [] := by
        by_contra hne
        exact hrel ⟨fun h => habs (.inl h), fun h => habs (.inr h), hne⟩
      rw [hcwd]
      rfl

variable {path : CStr}

theorem drivePart_none (h : (drivePart path).1 = none) : (drivePart path).2 = path := by
  unfold drivePart at h ⊢
  split at h
  · split_ifs at h ⊢
    rfl
  · rfl

theorem mem_namesOf (hw : w ∈ d.namesOf path) : IsWord isSep w := by
  rcases mem_append.mp hw with hw | hw
  · split_ifs at hw
    · cases hw
    · exact words_isWord hw
  · exact words_isWord hw

theorem walk_namesOf {out : CStr}
    (hw : work (d.mounts (d.driveOf path)) (drivePart path).2 = some w)
    (hout : walk [] (words isSep w) = some out) :
    out = slashed slash (normalise [] (d.namesOf path)) := by
  rw [words_work hw] at hout
  refine walk_eq (fun p hp => ?_) [] (fun _ hv => nomatch hv) hout
  have hclear := (isWord_slash (mem_namesOf hp)).1.clear
  exact fun hs => absurd (hclear slash hs) (by decide)

theorem dosPath_eq {n : Nat} (hn : 2 ≤ n) (hpath : path.head? ≠ some slash)
    (hroot : (d.mounts (d.driveOf path)).present = true →
      GoodRoot (d.mounts (d.driveOf path)).root) (h : d.dosPath n path = some host) :
    (d.mounts (d.driveOf path)).present = true ∧
      host = hostPath (d.mounts (d.driveOf path)).root
        ((normalise [] (d.namesOf path)).map lower) := by
  unfold dosPath at h
  dsimp only at h
  split_ifs at h with hplain habsent
  · rw [drivePart_none hplain.1] at hplain
    exact absurd hplain.2 hpath
  · have hpresent := Bool.not_eq_false _ |>.mp habsent
    refine ⟨hpresent, ?_⟩
    obtain ⟨out, hout, h⟩ := Option.bind_eq_some_iff.mp h
    obtain ⟨w, hw, hout⟩ := Option.bind_eq_some_iff.mp hout
    have hnames := walk_namesOf (d := d) hw hout
    have hclear : ∀ v ∈ normalise [] (d.namesOf path), backslash ∉ v := by
      intro v hv
      rcases mem_normalise hv with hv | ⟨hv, -⟩
      · cases hv
      · exact (isWord_slash (mem_namesOf hv)).2
    split_ifs at h with hlong hnil
    all_goals
      have hfold : (stem (d.mounts (d.driveOf path)).root ++ out).map fold =
          stem (d.mounts (d.driveOf path)).root ++
            slashed slash ((normalise [] (d.namesOf path)).map lower) := by
        rw [map_append, stem_plain (hroot hpresent), hnames, map_fold_slashed hclear]
      have heq := Option.some.inj h
      unfold hostPath
      rw [← hfold, ← heq]
    · have htake : [slash].take (n - 1) = [slash] := take_of_length_le (by simp; omega)
      rw [htake]
      exact (if_pos hnil).symm
    · exact (if_neg hnil).symm

/-- The path is the root or under it. -/
theorem under_hostPath (hroot : Clean root) (ns : List CStr) :
    Under root (hostPath root ns) := by
  obtain ⟨rs, hrs, rfl⟩ := hroot
  cases ns with
  | nil =>
    rw [hostPath_render hrs, append_nil]
    exact .inl rfl
  | cons n ns =>
    refine .inr ⟨n ++ slashed slash ns, ?_⟩
    unfold hostPath
    rw [slashed_cons, if_neg (by simp)]

theorem isName_of_mem_names {v : CStr}
    (hv : v ∈ (normalise [] (d.namesOf path)).map lower) : IsName v := by
  obtain ⟨u, hu, rfl⟩ := mem_map.mp hv
  rcases mem_normalise hu with hu | ⟨hu, hdot, hdd⟩
  · cases hu
  · exact lower_isName ⟨(isWord_slash (mem_namesOf hu)).1, hdot, hdd⟩

/-- No name of the path is `.` or `..`. -/
theorem components_hostPath (hroot : Clean root) :
    ∀ c ∈ components (hostPath root ((normalise [] (d.namesOf path)).map lower)),
      c ≠ dot ∧ c ≠ dotDot := by
  obtain ⟨rs, hrs, rfl⟩ := hroot
  have hall : ∀ n ∈ rs ++ (normalise [] (d.namesOf path)).map lower, IsName n :=
    forall_mem_append.mpr ⟨hrs, fun _ => isName_of_mem_names⟩
  rw [hostPath_render hrs, components_render hall]
  exact fun c hc => ⟨(hall c hc).not_dot, (hall c hc).not_dotDot⟩

/-! ## There and back -/

theorem longest_spec (d : Drives) (host : CStr) (is : List (Fin 26)) :
    ∀ best : Option (Fin 26) × Nat,
    (∀ i, best.1 = some i → (d.mounts i).present = true ∧ fits host (d.mounts i).root = true ∧
      best.2 = rootLen (d.mounts i).root) →
    ∀ i, (d.longest host is best).1 = some i → (d.mounts i).present = true ∧
      fits host (d.mounts i).root = true ∧
      (d.longest host is best).2 = rootLen (d.mounts i).root := by
  induction is with
  | nil => exact fun _ h => h
  | cons j is ih =>
    intro best hbest
    unfold longest
    split_ifs with hj
    · refine ih _ fun i hi => ?_
      simp only [Bool.and_eq_true] at hj
      cases hi
      exact ⟨hj.1.1, hj.1.2, rfl⟩
    · exact ih best hbest

theorem longest_ne_none (is : List (Fin 26)) {i : Fin 26}
    (hpresent : (d.mounts i).present = true) (hfits : fits host (d.mounts i).root = true)
    (hlen : 0 < rootLen (d.mounts i).root) : ∀ {best : Option (Fin 26) × Nat},
    (best.1 = none → best.2 = 0) → (best.1 ≠ none ∨ i ∈ is) →
      (d.longest host is best).1 ≠ none := by
  induction is with
  | nil =>
    intro best _ hor
    exact hor.resolve_right fun hi => nomatch hi
  | cons j is ih =>
    intro best hbest hor
    unfold longest
    split_ifs with hj
    · exact ih (fun h => nomatch h) (.inl fun h => nomatch h)
    · refine ih hbest ?_
      rcases hor with hsome | hi
      · exact .inl hsome
      · rcases mem_cons.mp hi with rfl | hi
        · refine .inl fun hnone => hj ?_
          rw [hpresent, hfits, hbest hnone, decide_eq_true hlen]
          rfl
        · exact .inr hi

end Drives

/-- The last byte of a path of names is not a slash. -/
theorem dropWhile_reverse_slashed (hns : ∀ n ∈ ns, IsName n) (hne : ns ≠ []) :
    (slashed slash ns).reverse.dropWhile (· = slash) = (slashed slash ns).reverse := by
  induction ns using reverseRecOn with
  | nil => exact absurd rfl hne
  | append_singleton init w _ =>
    have hw := (hns w (mem_append_right _ (mem_singleton_self w))).word
    rw [slashed_append, slashed_cons, slashed_nil, append_nil, reverse_append,
      reverse_cons, append_assoc]
    cases hrev : w.reverse with
    | nil => exact absurd (reverse_eq_nil_iff.mp hrev) hw.ne_nil
    | cons c cs =>
      have hc : c ∈ w := mem_reverse.mp (hrev ▸ mem_cons_self)
      have hne : c ≠ slash := by simpa using hw.clear c hc
      rw [cons_append, dropWhile_cons_of_neg (by simpa using hne)]

theorem rootLen_clean (h : Clean root) : Drives.rootLen root = root.length := by
  obtain ⟨ns, hns, rfl⟩ := h
  unfold render
  split_ifs with hnil
  · rfl
  · unfold Drives.rootLen
    rw [dropWhile_reverse_slashed hns hnil, length_reverse]
    omega

theorem clean_ne_nil (h : Clean p) : p ≠ [] := by
  obtain ⟨ns, -, rfl⟩ := h
  unfold render
  split_ifs with hnil
  · exact cons_ne_nil _ _
  · exact slashed_ne_nil hnil

theorem clean_of_length (h : Clean p) (hone : p.length = 1) : p = [slash] := by
  obtain ⟨ns, hns, rfl⟩ := h
  unfold render at hone ⊢
  split_ifs at hone ⊢ with hnil
  · rfl
  · cases ns with
    | nil => exact absurd rfl hnil
    | cons n ns =>
      have hn := length_pos_iff.mpr (hns n mem_cons_self).word.ne_nil
      rw [slashed_cons, length_cons, length_append] at hone
      omega

theorem fits_iff (hroot : Clean root) (host : CStr) : Drives.fits host root = true ↔
      ∃ rest, host = root ++ rest ∧ (root = [slash] ∨ rest = [] ∨ rest.head? = some slash) := by
  unfold Drives.fits
  dsimp only
  rw [rootLen_clean hroot, take_length, Bool.and_eq_true, beq_iff_eq]
  constructor
  · rintro ⟨htake, hnext⟩
    refine ⟨host.drop root.length, ?_, ?_⟩
    · have hsplit := take_append_drop root.length host
      rw [htake] at hsplit
      exact hsplit.symm
    · rw [← head?_drop] at hnext
      simp only [Bool.or_eq_true, Bool.and_eq_true, beq_iff_eq] at hnext
      rcases hnext with (⟨hone, -⟩ | hnone) | hslash
      · exact .inl (clean_of_length hroot hone)
      · exact .inr (.inl (head?_eq_none_iff.mp hnone))
      · exact .inr (.inr hslash)
  · rintro ⟨rest, rfl, hnext⟩
    refine ⟨by rw [take_left], ?_⟩
    rcases hnext with rfl | rfl | hhead
    · rfl
    · simp
    · rw [getElem?_append_right (Nat.le_refl _), Nat.sub_self, ← head?_eq_getElem?, hhead]
      simp

theorem fits_of_under (hroot : Clean root) (h : Under root host) :
    Drives.fits host root = true := by
  rw [fits_iff hroot]
  rcases h with rfl | ⟨rest, rfl⟩
  · exact ⟨[], (append_nil _).symm, .inr (.inl rfl)⟩
  · unfold stem
    split_ifs with hr
    · exact ⟨rest, by rw [hr]; rfl, .inl hr⟩
    · exact ⟨slash :: rest, rfl, .inr (.inr rfl)⟩

theorem slashed_cut {hs : List CStr} (hhs : ∀ n ∈ hs, slash ∉ n) : ∀ {front rest : CStr},
    slashed slash hs = front ++ slash :: rest →
      ∃ vs, (∀ v ∈ vs, v ∈ hs) ∧ slash :: rest = slashed slash vs := by
  induction hs with
  | nil =>
    intro front rest h
    exact absurd h.symm (by simp)
  | cons n hs ih =>
    intro front rest h
    cases front with
    | nil => exact ⟨n :: hs, fun _ hv => hv, h.symm⟩
    | cons c front =>
      have htail := (cons.inj h).2
      have hrest : ∃ front', slashed slash hs = front' ++ slash :: rest := by
        rcases append_eq_append_iff.mp htail with ⟨x, hx, hy⟩ | ⟨x, hx, hy⟩
        · exact ⟨x, hy⟩
        · cases x with
          | nil => exact ⟨[], hy.symm⟩
          | cons c' x =>
            have hc : slash = c' := (cons.inj hy).1
            refine absurd ?_ (hhs n mem_cons_self)
            rw [hx, hc]
            exact mem_append_right _ mem_cons_self
      obtain ⟨front', hfront⟩ := hrest
      obtain ⟨vs, hvs, heq⟩ := ih (forall_mem_cons.mp hhs).2 hfront
      exact ⟨vs, fun v hv => mem_cons_of_mem _ (hvs v hv), heq⟩

theorem IsName.not_slash (h : IsName n) : slash ∉ n :=
  fun hs => absurd (h.word.clear slash hs) (by decide)

theorem relative_eq (hvs : ∀ v ∈ vs, IsName v) :
    (slashed slash vs).dropWhile (· = slash) = (slashed slash vs).drop 1 := by
  cases vs with
  | nil => rfl
  | cons v vs =>
    have hv := hvs v mem_cons_self
    rw [slashed_cons, dropWhile_cons_of_pos (by simp), drop_succ_cons, drop_zero]
    cases v with
    | nil => exact absurd rfl hv.word.ne_nil
    | cons c v =>
      have hc : c ≠ slash := by simpa using hv.word.clear c mem_cons_self
      rw [cons_append, dropWhile_cons_of_neg (by simpa using hc)]

/-- A clean path under a clean root is the root and names after it. -/
theorem split_host (hroot : Clean root) (hhost : Clean host)
    (hfits : Drives.fits host root = true) : ∃ vs, (∀ v ∈ vs, IsName v) ∧ host = hostPath root vs ∧
      (host.drop root.length).dropWhile (· = slash) = (slashed slash vs).drop 1 := by
  obtain ⟨rest, rfl, hnext⟩ := (fits_iff hroot host).mp hfits
  obtain ⟨hs, hhs, hrender⟩ := hhost
  rw [drop_left]
  by_cases hslash : root = [slash]
  · -- the root is `/`, and the names are all of the path's
    subst hslash
    refine ⟨hs, hhs, ?_, ?_⟩
    · have hempty : hostPath (render []) hs = render ([] ++ hs) :=
        hostPath_render (forall_mem_nil _)
      rw [hrender]
      exact hempty.symm
    · rw [← relative_eq hhs]
      unfold render at hrender
      split_ifs at hrender with hnil
      · rw [hnil]
        have hrest : rest = [] := (cons.inj hrender).2
        rw [hrest]
        rfl
      · rw [← hrender, singleton_append, dropWhile_cons_of_pos (by simp)]
  · have hstem : stem root = root := if_neg hslash
    have hne : ∀ vs, root ++ slashed slash vs ≠ [] := fun vs h =>
      clean_ne_nil hroot (append_eq_nil_iff.mp h).1
    cases rest with
    | nil =>
      refine ⟨[], fun _ hv => (nomatch hv), ?_, rfl⟩
      unfold hostPath
      rw [hstem, if_neg (hne []), slashed_nil]
    | cons c rest =>
      have hc : c = slash := by
        rcases hnext with h | h | h
        · exact absurd h hslash
        · cases h
        · exact Option.some.inj h
      subst hc
      have hpath : slashed slash hs = root ++ slash :: rest := by
        unfold render at hrender
        split_ifs at hrender with hnil
        · have hlen := congrArg length hrender
          have hpos := length_pos_iff.mpr (clean_ne_nil hroot)
          rw [length_append, length_cons, length_singleton] at hlen
          omega
        · exact hrender.symm
      obtain ⟨vs, hvs, hcut⟩ := slashed_cut (fun n hn => (hhs n hn).not_slash) hpath
      refine ⟨vs, fun v hv => hhs v (hvs v hv), ?_, ?_⟩
      · unfold hostPath
        rw [hstem, if_neg (hne vs), hcut]
      · rw [hcut]
        exact relative_eq fun v hv => hhs v (hvs v hv)

theorem walk_names (hvs : ∀ v ∈ vs, IsName v) : ∀ stack,
    (slashed slash (stack ++ vs)).length + 1 < workSize →
      walk (slashed slash stack) vs = some (slashed slash (stack ++ vs)) := by
  induction vs with
  | nil =>
    intro stack _
    rw [append_nil]
    rfl
  | cons v vs ih =>
    intro stack hfit
    have hv := hvs v mem_cons_self
    have hsnoc : slashed slash stack ++ slash :: v = slashed slash (stack ++ [v]) := by
      rw [slashed_append, slashed_cons, slashed_nil, append_nil]
    have hassoc : stack ++ v :: vs = stack ++ [v] ++ vs := by
      rw [append_assoc, singleton_append]
    have hlen := congrArg length (slashed_append slash (stack ++ [v]) vs)
    rw [← hsnoc, length_append, length_append, length_cons] at hlen
    rw [hassoc] at hfit ⊢
    unfold walk
    rw [if_neg hv.not_dot, if_neg hv.not_dotDot, if_neg (by omega), hsnoc,
      ih (forall_mem_cons.mp hvs).2 (stack ++ [v]) hfit]

theorem drivePart_letter (i : Fin 26) (rest : CStr) :
    drivePart (UInt8.ofNat (65 + i.val) :: colon :: rest) = (some i, rest) := by
  have hletter : ∀ i : Fin 26, isAlpha (.ofNat (65 + i.val)) = true ∧
      .ofNat 26 ((toUpper (.ofNat (65 + i.val))).toNat - 65) = i := by decide
  unfold drivePart
  dsimp only
  rw [(hletter i).1, (hletter i).2]
  rfl

theorem map_toBackslash (hvs : ∀ v ∈ vs, slash ∉ v) :
    (slashed slash vs).map toBackslash = slashed backslash vs := by
  induction vs with
  | nil => rfl
  | cons v vs ih =>
    have hv : v.map toBackslash = v :=
      (map_congr_left (g := id) fun c hc =>
        if_neg fun hcs : c = slash => hvs v mem_cons_self (hcs ▸ hc)).trans (map_id v)
    rw [slashed_cons, map_cons, map_append, hv,
      ih (forall_mem_cons.mp hvs).2, slashed_cons]
    rfl

theorem words_guest (hvs : ∀ v ∈ vs, IsName v) (hplain : ∀ v ∈ vs, backslash ∉ v) :
    words isSep (backslash :: ((slashed slash vs).drop 1).map toBackslash) = vs := by
  cases vs with
  | nil => rfl
  | cons v vs =>
    have hslashed : backslash :: ((slashed slash (v :: vs)).drop 1).map toBackslash =
        slashed backslash (v :: vs) := by
      rw [← map_toBackslash fun w hw => (hvs w hw).not_slash]
      rfl
    rw [hslashed]
    refine words_slashed (by decide) _ fun w hw => ⟨(hvs w hw).word.ne_nil, fun c hc => ?_⟩
    unfold isSep
    rw [Bool.or_eq_false_iff, beq_eq_false_iff_ne]
    exact ⟨fun hcb => hplain w hw (hcb ▸ hc), (hvs w hw).word.clear c hc⟩

/-- Every byte of the names is one of the path's. -/
theorem mem_hostPath {v : CStr} (hv : v ∈ vs) (hc : c ∈ v) : c ∈ hostPath root vs := by
  have hmem : c ∈ slashed slash vs := mem_flatMap.mpr ⟨v, hv, mem_cons_of_mem _ hc⟩
  unfold hostPath
  split_ifs with hnil
  · rw [(append_eq_nil_iff.mp hnil).2] at hmem
    cases hmem
  · exact mem_append_right _ hmem

namespace Drives

variable {d : Drives}

theorem dosPath_guest {i : Fin 26} {m : Nat}
    (hpresent : (d.mounts i).present = true) (hvs : ∀ v ∈ vs, IsName v)
    (hlower : LowerCase (hostPath (d.mounts i).root vs))
    (hplain : backslash ∉ hostPath (d.mounts i).root vs)
    (hfit : ((slashed slash vs).drop 1).length ≤ 509)
    (hm : (hostPath (d.mounts i).root vs).length < m) :
    d.dosPath m (UInt8.ofNat (65 + i.val) :: colon :: backslash ::
      ((slashed slash vs).drop 1).map toBackslash) = some (hostPath (d.mounts i).root vs) := by
  have hvplain : ∀ v ∈ vs, backslash ∉ v := fun v hv hb => hplain (mem_hostPath hv hb)
  have hlen : (slashed slash vs).length ≤ 510 := by
    rw [length_drop] at hfit
    omega
  have hwork : work (d.mounts i) (backslash :: ((slashed slash vs).drop 1).map toBackslash) =
      some (backslash :: ((slashed slash vs).drop 1).map toBackslash) := by
    unfold work
    rw [if_neg (by simp), if_neg]
    rw [length_cons, length_map]
    unfold workSize
    omega
  have hwalk : walk [] vs = some (slashed slash vs) :=
    walk_names hvs [] (by rw [nil_append]; unfold workSize; omega)
  unfold dosPath
  rw [drivePart_letter]
  dsimp only [Option.getD_some]
  rw [if_neg (by simp), if_neg (by rw [hpresent]; decide), hwork, Option.bind_some,
    words_guest hvs hvplain, hwalk, Option.bind_some]
  unfold hostPath at hlower hplain hm ⊢
  by_cases hnil : stem (d.mounts i).root ++ slashed slash vs = []
  · rw [if_pos hnil] at hm ⊢
    rw [length_singleton] at hm
    rw [hnil, if_neg (by simp; omega), map_nil, if_pos rfl, take_of_length_le (by simp; omega)]
  · rw [if_neg hnil] at hlower hplain hm ⊢
    rw [if_neg (by omega), map_fold_plain hlower hplain, if_neg hnil]

/-- A clean path under some drive's root has a DOS form, and comes back from it. -/
theorem guest_round_trip (hroots : ∀ i, (d.mounts i).present = true → Clean (d.mounts i).root)
    (hclean : Clean host) (hlower : LowerCase host) (hplain : backslash ∉ host)
    {i : Fin 26} (hpresent : (d.mounts i).present = true) (hunder : Under (d.mounts i).root host)
    {n : Nat} (hn : host.length + 4 ≤ n) : ∃ guest, d.dosGuestPath n host = some guest ∧
      ∀ m, guest.length ≤ workSize → host.length < m → d.dosPath m guest = some host := by
  have hfits := fits_of_under (hroots i hpresent) hunder
  have hpos : 0 < rootLen (d.mounts i).root := by
    rw [rootLen_clean (hroots i hpresent)]
    exact length_pos_iff.mpr (clean_ne_nil (hroots i hpresent))
  have hsome : (d.longest host (finRange 26) (none, 0)).1 ≠ none :=
    longest_ne_none _ hpresent hfits hpos (fun _ => rfl) (.inr (mem_finRange i))
  have hspec := d.longest_spec host (finRange 26) (none, 0) fun _ h => nomatch h
  unfold dosGuestPath
  generalize d.longest host (finRange 26) (none, 0) = best at hsome hspec ⊢
  obtain ⟨best, len⟩ := best
  cases best with
  | none => exact absurd rfl hsome
  | some j =>
    obtain ⟨hj, hjfits, rfl⟩ := hspec j rfl
    obtain ⟨vs, hvs, hhost, hrel⟩ := split_host (hroots j hj) hclean hjfits
    dsimp only
    rw [rootLen_clean (hroots j hj), hrel]
    have hshort : ((slashed slash vs).drop 1).length ≤ host.length := by
      rw [← hrel]
      exact Nat.le_trans (dropWhile_sublist _).length_le (by rw [length_drop]; omega)
    rw [if_neg (by omega)]
    refine ⟨_, rfl, fun m hfit hm => ?_⟩
    rw [length_cons, length_cons, length_cons, length_map] at hfit
    unfold workSize at hfit
    rw [hhost] at hlower hplain hm ⊢
    exact dosPath_guest hj hvs hlower hplain (by omega) hm

/-! ## Runs -/

inductive Act
  | setDrive (drive : Fin 26)
  | chdir (path : CStr)

def step (isDir : CStr → Bool) (a : Act) (d : Drives) : Option Drives :=
  match a with
  | .setDrive drive => d.dosSetDrive drive
  | .chdir path => d.dosChdir isDir path

/-- The default drive and the current directories change, as DOS programs do. -/
def Next (isDir : CStr → Bool) (a : Act) (d d' : Drives) : Prop := d.step isDir a = some d'

/-- Where the drives point. -/
def SameRoots (d d' : Drives) : Prop :=
  ∀ i, (d'.mounts i).root = (d.mounts i).root ∧ (d'.mounts i).present = (d.mounts i).present

theorem step_sameRoots {isDir : CStr → Bool} {a : Act} {d' : Drives}
    (h : d.step isDir a = some d') : SameRoots d d' := by
  cases a with
  | setDrive drive =>
    simp only [step, dosSetDrive] at h
    split_ifs at h
    cases h
    exact fun i => ⟨rfl, rfl⟩
  | chdir path =>
    simp only [step, dosChdir] at h
    split_ifs at h
    obtain ⟨mapped, -, h⟩ := Option.bind_eq_some_iff.mp h
    split_ifs at h
    cases h
    intro i
    dsimp only
    split_ifs with hi
    · rw [hi]
      exact ⟨rfl, rfl⟩
    · exact ⟨rfl, rfl⟩

theorem sameRoots_of_reached {isDir : CStr → Bool} {d₀ : Drives}
    (h : Reached (Next isDir) d₀ d) : SameRoots d₀ d := by
  refine h.invariant (P := SameRoots d₀) (fun i => ⟨rfl, rfl⟩) fun a d d' hd hs i => ?_
  obtain ⟨hroot, hpresent⟩ := step_sameRoots hs i
  exact ⟨hroot.trans (hd i).1, hpresent.trans (hd i).2⟩

/-- With good roots, whatever directories are current: a DOS path comes to the
drive's root or under it, to no `.` or `..`, and to the normalised names in lower
case; and a good path under a root comes back from its DOS form. -/
theorem path_run {isDir : CStr → Bool} {d₀ : Drives}
    (hroots : ∀ i, (d₀.mounts i).present = true → GoodRoot (d₀.mounts i).root)
    (h : Reached (Next isDir) d₀ d) :
    (∀ n path host, 2 ≤ n → path.head? ≠ some slash → d.dosPath n path = some host →
      (d.mounts (d.driveOf path)).present = true ∧
        Under (d.mounts (d.driveOf path)).root host ∧
        (∀ c ∈ components host, c ≠ dot ∧ c ≠ dotDot) ∧
        host = hostPath (d.mounts (d.driveOf path)).root
          ((normalise [] (d.namesOf path)).map lower)) ∧
    ∀ host i n, Clean host → LowerCase host → backslash ∉ host →
      (d.mounts i).present = true → Under (d.mounts i).root host → host.length + 4 ≤ n →
      ∃ guest, d.dosGuestPath n host = some guest ∧
        ∀ m, guest.length ≤ workSize → host.length < m → d.dosPath m guest = some host := by
  have hsame := sameRoots_of_reached h
  have hgood : ∀ i, (d.mounts i).present = true → GoodRoot (d.mounts i).root := fun i hi =>
    (hsame i).1 ▸ hroots i ((hsame i).2 ▸ hi)
  refine ⟨fun n path host hn hpath hs => ?_, fun host i n hclean hlower hplain hi hunder hn => ?_⟩
  · obtain ⟨hpresent, rfl⟩ := dosPath_eq hn hpath (hgood _) hs
    have hclean := (hgood _ hpresent).clean
    exact ⟨hpresent, under_hostPath hclean _, components_hostPath hclean, rfl⟩
  · exact guest_round_trip (fun j hj => (hgood j hj).clean) hclean hlower hplain hi hunder hn

/-- One drive, `C:`, with its root at `root`. -/
def oneDrive (root : CStr) : Drives where
  mounts := fun i => ⟨root, [], i = 2⟩
  current := 2

/-- `/n/hd`. -/
def hardDisk : CStr := [47, 110, 47, 104, 100]

theorem hardDisk_good : GoodRoot hardDisk where
  clean := by
    refine ⟨[[110], [104, 100]], fun n hn => ?_, by decide⟩
    simp only [mem_cons, not_mem_nil, or_false] at hn
    rcases hn with rfl | rfl
    · exact ⟨⟨by decide, by decide +kernel⟩, by decide, by decide⟩
    · exact ⟨⟨by decide, by decide +kernel⟩, by decide, by decide⟩
  lowerCase := by
    unfold LowerCase
    decide +kernel
  plain := by decide

/-- After `CD GAMES` the path `..\..\A.TXT` comes to `/n/hd/a.txt`. -/
theorem path_run_up : ∃ d, Reached (Next fun _ => true) (oneDrive hardDisk) d ∧
      (d.mounts 2).cwd = [103, 97, 109, 101, 115] ∧
      d.dosPath 64 [46, 46, 92, 46, 46, 92, 65, 46, 84, 88, 84] =
        some (hardDisk ++ [47, 97, 46, 116, 120, 116]) ∧
      Under (d.mounts 2).root (hardDisk ++ [47, 97, 46, 116, 120, 116]) := by
  have hrun : (follow (step fun _ => true) [.chdir [71, 65, 77, 69, 83]] (oneDrive hardDisk)).map
      (fun d => ((d.mounts 2).cwd, d.current,
        d.dosPath 64 [46, 46, 92, 46, 46, 92, 65, 46, 84, 88, 84])) =
      some ([103, 97, 109, 101, 115], 2, some (hardDisk ++ [47, 97, 46, 116, 120, 116])) := by
    decide +kernel
  obtain ⟨d, hd, hat⟩ := Option.map_eq_some_iff.mp hrun
  have hreached : Reached (Next fun _ => true) (oneDrive hardDisk) d :=
    .follow (fun _ _ _ hs => hs) .start hd
  simp only [Prod.mk.injEq] at hat
  obtain ⟨hcwd, hcurrent, hpath⟩ := hat
  have hunder := ((path_run (fun _ _ => hardDisk_good) hreached).1 64 _ _ (by decide) (by decide)
    hpath).2.1
  have hdrive : d.driveOf [46, 46, 92, 46, 46, 92, 65, 46, 84, 88, 84] = 2 := hcurrent
  rw [hdrive] at hunder
  exact ⟨d, hreached, hcwd, hpath, hunder⟩

/-- The root `/n/a\b`: its backslash becomes a slash, and the path `x` on the
drive comes to `/n/a/b/x`. -/
theorem root_left : Clean [47, 110, 47, 97, 92, 98] ∧ LowerCase [47, 110, 47, 97, 92, 98] ∧
      (oneDrive [47, 110, 47, 97, 92, 98]).dosPath 64 [120] =
        some [47, 110, 47, 97, 47, 98, 47, 120] ∧
      ¬ Under [47, 110, 47, 97, 92, 98] [47, 110, 47, 97, 47, 98, 47, 120] := by
  refine ⟨⟨[[110], [97, 92, 98]], fun n hn => ?_, by decide⟩, ?_, by decide +kernel, ?_⟩
  · simp only [mem_cons, not_mem_nil, or_false] at hn
    rcases hn with rfl | rfl
    · exact ⟨⟨by decide, by decide +kernel⟩, by decide, by decide⟩
    · exact ⟨⟨by decide, by decide +kernel⟩, by decide, by decide⟩
  · unfold LowerCase
    decide +kernel
  · rintro (h | ⟨rest, h⟩)
    · exact absurd h (by decide)
    · have hfifth := congrArg (fun l : CStr => l[4]?) h
      exact absurd hfifth (by simp [stem, slash])

end Drives

end ManiOS.Dos.Paths
