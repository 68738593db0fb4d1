/-
string.c and fs.c: the names in paths and directories.

A string is the list of its bytes before the NUL. A name is kept in `DIRSIZ`
bytes and has a NUL only if it is shorter; past the end of a list the bytes are
taken to be 0.
-/
import Xv6.Fs.Format
import Mathlib.Data.List.TakeWhile

namespace Xv6

open Fs

def strncmp : (n : Nat) → (p q : List UInt8) → Int
  | 0, _, _ => 0
  | n + 1, p, q =>
    if p.headD 0 ≠ 0 ∧ p.headD 0 = q.headD 0 then strncmp n p.tail q.tail
    else ((p.headD 0).toNat : Int) - (q.headD 0).toNat

def namecmp (s t : List UInt8) : Int := strncmp DIRSIZ s t

/-- The name that a buffer of `DIRSIZ` bytes holds. -/
def nameOf (b : List UInt8) : List UInt8 := (b.take DIRSIZ).takeWhile (· ≠ 0)

/-- The byte of the character that separates names. -/
def slash : UInt8 := 0x2f

/-- Copy the next path element from `path` into `name`: what follows it, and
`name` after that. -/
def skipelem (path name : List UInt8) : Option (List UInt8 × List UInt8) :=
  let s := path.dropWhile (· = slash)
  if s = [] then none
  else
    let path := s.dropWhile (· ≠ slash)
    let len := s.length - path.length
    let name :=
      if DIRSIZ ≤ len then s.take DIRSIZ ++ name.drop DIRSIZ
      else s.take len ++ 0 :: name.drop (len + 1)
    some (path.dropWhile (· = slash), name)

/-- The components of a path: what stands between slashes and is not empty,
cut to `DIRSIZ` bytes. -/
def components (path : List UInt8) : List (List UInt8) :=
  ((path.splitOn slash).filter (· ≠ [])).map (·.take DIRSIZ)

/-! ## Comparing names -/

theorem strncmp_eq_zero {n : Nat} {p q : List UInt8} :
    strncmp n p q = 0 ↔ (p.take n).takeWhile (· ≠ 0) = (q.take n).takeWhile (· ≠ 0) := by
  induction n generalizing p q with
  | zero => simp [strncmp]
  | succ n ih =>
    have hsub : ∀ a b : UInt8, ((a.toNat : Int) - b.toNat = 0) ↔ a = b := by
      intro a b
      rw [← UInt8.toNat_inj]
      omega
    rw [strncmp]
    split
    next h =>
      obtain ⟨hp, hpq⟩ := h
      cases p with
      | nil => simp at hp
      | cons a p =>
        cases q with
        | nil =>
          simp only [List.headD_cons, List.headD_nil] at hp hpq
          exact absurd hpq hp
        | cons b q =>
          simp only [List.headD_cons] at hp hpq
          subst hpq
          simpa [hp] using ih (p := p) (q := q)
    next h =>
      rw [hsub]
      cases p <;> cases q <;> simp_all [List.takeWhile_cons] <;> grind

/-- Names are compared on their first `DIRSIZ` bytes, up to a NUL. -/
theorem namecmp_eq_zero {s t : List UInt8} : namecmp s t = 0 ↔ nameOf s = nameOf t :=
  strncmp_eq_zero

/-! ## The elements of a path -/

theorem components_nil : components [] = [] := by simp [components]

theorem components_slash (p : List UInt8) : components (slash :: p) = components p := by
  unfold components List.splitOn
  rw [List.splitOnP_cons_eq_if_modifyHead]
  simp

theorem components_dropWhile (p : List UInt8) :
    components (p.dropWhile (· = slash)) = components p := by
  induction p with
  | nil => rfl
  | cons a p ih =>
    rw [List.dropWhile_cons]
    split
    next ha =>
      have ha : a = slash := by simpa using ha
      rw [ha, components_slash, ih]
    next => rfl

theorem components_word {w rest : List UInt8} (hw : w ≠ []) (hno : slash ∉ w)
    (hrest : ∀ a ∈ rest.head?, a = slash) :
    components (w ++ rest) = w.take DIRSIZ :: components rest := by
  have hall : ∀ a ∈ w, (a == slash) = false := by
    intro a ha
    simpa using fun he : a = slash => hno (he ▸ ha)
  cases rest with
  | nil =>
    rw [List.append_nil, components_nil]
    unfold components List.splitOn
    rw [List.splitOnP_eq_singleton hall]
    simp [hw]
  | cons a rest =>
    have ha : a = slash := hrest a rfl
    rw [ha, components_slash]
    unfold components List.splitOn
    rw [List.splitOnP_append_cons _ _ (by simp), List.splitOnP_eq_singleton hall]
    simp [hw]

/-- The word that a path starts with. -/
theorem take_word (s : List UInt8) :
    s.take (s.length - (s.dropWhile (· ≠ slash)).length) = s.takeWhile (· ≠ slash) := by
  have happ := List.takeWhile_append_dropWhile (p := fun a => decide (a ≠ slash)) (l := s)
  have hlen := congrArg List.length happ
  rw [List.length_append] at hlen
  have heq : s.length - (s.dropWhile (· ≠ slash)).length =
      (s.takeWhile (· ≠ slash)).length := by
    omega
  rw [heq]
  conv => lhs; arg 2; rw [← happ]
  exact List.take_left

theorem nameOf_word {w name : List UInt8} (h0 : (0 : UInt8) ∉ w) :
    nameOf (if DIRSIZ ≤ w.length then w.take DIRSIZ ++ name.drop DIRSIZ
      else w ++ 0 :: name.drop (w.length + 1)) = w.take DIRSIZ := by
  have hall : ∀ a ∈ w.take DIRSIZ, decide (a ≠ 0) = true := by
    intro a ha
    simpa using fun he : a = 0 => h0 (he ▸ List.mem_of_mem_take ha)
  unfold nameOf
  split
  next hlen =>
    rw [List.take_append_of_le_length (by simp [hlen]), List.take_take, Nat.min_self]
    exact List.takeWhile_eq_self_iff.2 hall
  next hlen =>
    have hlt : w.length < DIRSIZ := Nat.lt_of_not_le hlen
    obtain ⟨k, hk⟩ : ∃ k, DIRSIZ - w.length = k + 1 := ⟨DIRSIZ - w.length - 1, by omega⟩
    rw [List.take_append, hk, List.take_succ_cons, List.takeWhile_append_of_pos hall]
    simp

/-- What follows a word is empty or starts with a slash. -/
theorem dropWhile_word (s : List UInt8) : ∀ a ∈ (s.dropWhile (· ≠ slash)).head?, a = slash := by
  intro a ha
  have h := List.head?_dropWhile_not (fun a => decide (a ≠ slash)) s
  rw [ha] at h
  simpa using h

/-- A path that does not start with a slash starts with a component. -/
theorem components_eq {s : List UInt8} (hs : s ≠ []) (hhead : ∀ a ∈ s.head?, a ≠ slash) :
    components s = (s.takeWhile (· ≠ slash)).take DIRSIZ ::
      components (s.dropWhile (· ≠ slash)) := by
  have hw : s.takeWhile (· ≠ slash) ≠ [] := by
    cases s with
    | nil => exact absurd rfl hs
    | cons a s => simp [hhead a rfl]
  have hno : slash ∉ s.takeWhile (· ≠ slash) := by
    intro hin
    simpa using List.mem_takeWhile_imp hin
  rw [← components_word hw hno (dropWhile_word s), List.takeWhile_append_dropWhile]

theorem dropWhile_slash (p : List UInt8) : ∀ a ∈ (p.dropWhile (· = slash)).head?, a ≠ slash := by
  intro a ha
  have h := List.head?_dropWhile_not (fun a => decide (a = slash)) p
  rw [ha] at h
  simpa using h

/-- When `skipelem` returns 0, the path has no component. -/
theorem skipelem_none {path name : List UInt8} (h : skipelem path name = none) :
    components path = [] := by
  unfold skipelem at h
  simp only at h
  split at h
  next hs => rw [← components_dropWhile, hs, components_nil]
  next => cases h

/-- `skipelem` takes the first component off the path. -/
theorem skipelem_some {path name rest name' : List UInt8} (h0 : (0 : UInt8) ∉ path)
    (h : skipelem path name = some (rest, name')) :
    components path = nameOf name' :: components rest ∧ (0 : UInt8) ∉ rest ∧
      (rest = [] ↔ components rest = []) := by
  unfold skipelem at h
  simp only at h
  split at h
  next => cases h
  next hs =>
    obtain ⟨hrest, hname⟩ := Prod.mk.inj (Option.some.inj h)
    have hhead := dropWhile_slash path
    have hsub : path.dropWhile (· = slash) <:+ path := List.dropWhile_suffix _
    rw [← components_dropWhile path]
    generalize path.dropWhile (· = slash) = s at *
    have hword := take_word s
    have hlen : s.length - (s.dropWhile (· ≠ slash)).length =
        (s.takeWhile (· ≠ slash)).length := by
      rw [← hword, List.length_take]
      omega
    rw [components_eq hs hhead, ← hrest, components_dropWhile]
    refine ⟨?_, ?_, ?_⟩
    · have hw0 : (0 : UInt8) ∉ s.takeWhile (· ≠ slash) := fun hin =>
        h0 (hsub.subset (List.takeWhile_sublist _ |>.subset hin))
      rw [← @nameOf_word _ name hw0, ← hname, hlen]
      rw [hlen] at hword
      congr 2
      split
      next hge => rw [← hword, List.take_take, Nat.min_eq_left hge]
      next => rw [hword]
    · exact fun hin => h0 (hsub.subset
        ((List.dropWhile_suffix _).subset ((List.dropWhile_suffix _).subset hin)))
    · constructor
      · intro hnil
        rw [← components_dropWhile, hnil, components_nil]
      · intro hnil
        by_contra hne
        rw [← components_dropWhile, components_eq hne (dropWhile_slash _)] at hnil
        cases hnil

/-- `skipelem` returns a shorter path. -/
theorem skipelem_shorter {path name rest name' : List UInt8}
    (h : skipelem path name = some (rest, name')) : rest.length < path.length := by
  unfold skipelem at h
  simp only at h
  split at h
  next => cases h
  next hs =>
    rw [← (Prod.mk.inj (Option.some.inj h)).1]
    have hhead := dropWhile_slash path
    have hsub : (path.dropWhile (· = slash)).length ≤ path.length :=
      (List.dropWhile_suffix _).length_le
    generalize path.dropWhile (· = slash) = s at *
    cases s with
    | nil => exact absurd rfl hs
    | cons a s =>
      have ha : a ≠ slash := hhead a rfl
      have hdrop : ((a :: s).dropWhile (· ≠ slash)).length ≤ s.length := by
        rw [List.dropWhile_cons_of_pos (by simpa using ha)]
        exact (List.dropWhile_suffix _).length_le
      have hskip : (((a :: s).dropWhile (· ≠ slash)).dropWhile (· = slash)).length ≤
          ((a :: s).dropWhile (· ≠ slash)).length := (List.dropWhile_suffix _).length_le
      simp only [List.length_cons] at hsub
      omega

/-- What calling `skipelem` again and again puts in `name`, until it returns 0. -/
def elements (path name : List UInt8) : List (List UInt8) :=
  match _h : skipelem path name with
  | none => []
  | some (rest, name') => nameOf name' :: elements rest name'
termination_by path.length
decreasing_by exact skipelem_shorter _h

theorem elements_eq {path name : List UInt8} (h0 : (0 : UInt8) ∉ path) :
    elements path name = components path := by
  induction path, name using elements.induct with
  | case1 path name h =>
    rw [elements, skipelem_none h]
    split
    next => rfl
    next hs => rw [hs] at h; cases h
  | case2 path name rest name' h ih =>
    obtain ⟨hcons, hrest, -⟩ := skipelem_some h0 h
    rw [elements, hcons]
    split
    next hs => rw [hs] at h; cases h
    next hs =>
      cases hs.symm.trans h
      rw [ih hrest]

end Xv6
