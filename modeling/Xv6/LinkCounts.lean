/-
The link count of every inode is the number of its links, until one inode gets
more than 32767.

`Books` keeps the accounts: an inode has as many links as entries name it, and
a directory one for each directory in it. While a call is going on some links
are spare, or missing. No call checks how many links an inode has, and two
directories have room for more than 16 bits can count.
-/
import Xv6.Links
import Mathlib.Algebra.BigOperators.Group.Finset.Basic
import Mathlib.Algebra.Order.BigOperators.Group.Finset
import Mathlib.Data.Int.Basic

namespace Xv6.LinkCounts

open Conc Fs

/-! ## The names of an inode -/

/-- An entry in use, other than "." and "..". -/
def Dirent.named (de : Dirent) : Bool := de.inum ≠ 0 ∧ de.name ≠ dot ∧ de.name ≠ dotdot

namespace State

/-- How many entries name an inode. -/
def names (ninodes : Nat) (s : State) (i : Nat) : Nat :=
  ∑ d ∈ Finset.range ninodes, (s.dir d).countP fun de => de.named && de.inum = i

/-- How many directories a directory has in it. -/
def subdirs (s : State) (d : Nat) : Nat :=
  (s.dir d).countP fun de => de.named && s.type de.inum = T_DIR

end State

/-- Every inode has the links that its names and its subdirectories give it, and
`spare i` more. -/
structure Books (ninodes : Nat) (spare : Nat → Int) (s : State) : Prop where
  links : ∀ i, (s.names ninodes i : Int) + s.subdirs i + spare i ≤ (s.nlink i).toInt
  count : ∀ i, (s.nlink i).toInt = s.count i
  named : ∀ d, ∀ de ∈ s.dir d, de.named → s.type de.inum ≠ 0
  free : ∀ i, s.type i = 0 → s.nlink i = 0 ∧ s.dir i = []
  bound : ∀ i, s.type i ≠ 0 → i < ninodes

variable {ninodes : Nat} {s s' : State} {spare spare' : Nat → Int} {ip dp : Nat}

namespace Books

theorem weaken (h : Books ninodes spare s) (hle : ∀ i, spare' i ≤ spare i) :
    Books ninodes spare' s where
  links i := by
    have := h.links i
    have := hle i
    omega
  count := h.count
  named := h.named
  free := h.free
  bound := h.bound

/-- The books depend on the directories, types and link counts. -/
theorem congr (h : Books ninodes spare s) (htype : s'.type = s.type) (hdir : s'.dir = s.dir)
    (hnlink : s'.nlink = s.nlink) (hcount : s'.count = s.count) : Books ninodes spare s' where
  links i := by
    simpa only [State.names, State.subdirs, htype, hdir, hnlink] using h.links i
  count i := by simpa only [hnlink, hcount] using h.count i
  named d := by simpa only [htype, hdir] using h.named d
  free i := by simpa only [htype, hdir, hnlink] using h.free i
  bound i := by simpa only [htype] using h.bound i

/-- An inode that is not allocated has no names. -/
theorem names_free (h : Books ninodes spare s) {i : Nat} (hi : s.type i = 0) :
    s.names ninodes i = 0 := by
  refine Finset.sum_eq_zero fun d _ => List.countP_eq_zero.2 fun de hde hp => ?_
  simp only [Bool.and_eq_true, decide_eq_true_eq] at hp
  exact h.named d de hde hp.1 (hp.2 ▸ hi)

/-- A link is counted. -/
theorem addLink (h : Books ninodes spare s) (ip : Nat) (d : Int) (htype : s.type ip ≠ 0)
    (hfit : -32768 ≤ (s.nlink ip).toInt + d ∧ (s.nlink ip).toInt + d ≤ 32767) :
    Books ninodes (fun i => if i = ip then spare i + d else spare i) (s.addLink ip d) where
  links i := by
    have hlinks := h.links i
    show (s.names ninodes i : Int) + s.subdirs i + _ ≤
      (Function.update s.nlink ip _ i).toInt
    by_cases he : i = ip
    · subst he
      rw [if_pos rfl, Function.update_self, BitVec.toInt_add, BitVec.toInt_ofInt,
        Int.add_bmod_bmod, Int.bmod_eq_of_le (by omega) (by omega)]
      omega
    · rw [if_neg he, Function.update_of_ne he]
      exact hlinks
  count i := by
    show (Function.update s.nlink ip _ i).toInt = Function.update s.count ip _ i
    by_cases he : i = ip
    · subst he
      rw [Function.update_self, Function.update_self, BitVec.toInt_add, BitVec.toInt_ofInt,
        Int.add_bmod_bmod, Int.bmod_eq_of_le (by omega) (by omega), h.count]
    · rw [Function.update_of_ne he, Function.update_of_ne he]
      exact h.count i
  named := h.named
  free i hi := by
    have hne : i ≠ ip := fun he => htype (he ▸ hi)
    refine ⟨?_, (h.free i hi).2⟩
    show Function.update s.nlink ip _ i = 0
    rw [Function.update_of_ne hne]
    exact (h.free i hi).1
  bound := h.bound

end Books

/-! ## Changing a directory -/

theorem names_setDir (hdp : dp < ninodes) (des : List Dirent) (i : Nat) :
    ((s.setDir dp des).names ninodes i : Int) = s.names ninodes i +
      des.countP (fun de => de.named && de.inum = i) -
      (s.dir dp).countP (fun de => de.named && de.inum = i) := by
  have hmem := Finset.mem_range.2 hdp
  have hnew := Finset.add_sum_erase (Finset.range ninodes)
    (fun d => ((s.setDir dp des).dir d).countP fun de => de.named && de.inum = i) hmem
  have hold := Finset.add_sum_erase (Finset.range ninodes)
    (fun d => (s.dir d).countP fun de => de.named && de.inum = i) hmem
  have hsame : ∑ d ∈ (Finset.range ninodes).erase dp,
      (((s.setDir dp des).dir d).countP fun de => de.named && de.inum = i) =
      ∑ d ∈ (Finset.range ninodes).erase dp,
        ((s.dir d).countP fun de => de.named && de.inum = i) := by
    refine Finset.sum_congr rfl fun d hd => ?_
    simp only [State.setDir, Function.update_of_ne (Finset.ne_of_mem_erase hd)]
  simp only [State.setDir, Function.update_self] at hnew hsame
  unfold State.names
  simp only [State.setDir]
  omega

theorem subdirs_setDir (des : List Dirent) (i : Nat) :
    ((s.setDir dp des).subdirs i : Int) = s.subdirs i + if i = dp then
      des.countP (fun de => de.named && s.type de.inum = T_DIR) -
        ((s.dir dp).countP (fun de => de.named && s.type de.inum = T_DIR) : Int) else 0 := by
  unfold State.subdirs State.setDir
  by_cases he : i = dp
  · subst he
    simp
  · simp [he]

/-- What a change of a directory does to the counts of its entries. -/
def Changes (old new : List Dirent) (de : Dirent) (d : Int) : Prop :=
  ∀ p : Dirent → Bool, (∀ de, de.inum = 0 → p de = false) →
    (new.countP p : Int) = old.countP p + if p de then d else 0

theorem named_inum {de : Dirent} (h : de.inum = 0) : de.named = false := by
  simp [Dirent.named, h]

namespace Books

theorem setDir (h : Books ninodes spare s) (hdp : dp < ninodes) {des : List Dirent} {e : Dirent}
    {d : Int} (hc : Changes (s.dir dp) des e d)
    (hnamed : ∀ de ∈ des, de.named → s.type de.inum ≠ 0) (hdir : s.type dp ≠ 0) :
    Books ninodes (fun i => spare i - (if e.named ∧ e.inum = i then d else 0) -
      if i = dp ∧ e.named ∧ s.type e.inum = T_DIR then d else 0) (s.setDir dp des) where
  links i := by
    have hlinks := h.links i
    have hnames := hc (fun de => de.named && de.inum = i) fun de h => by simp [named_inum h]
    have hsub := hc (fun de => de.named && s.type de.inum = T_DIR) fun de h => by
      simp [named_inum h]
    simp only [Bool.and_eq_true, decide_eq_true_eq] at hnames hsub
    rw [names_setDir hdp, subdirs_setDir]
    show _ ≤ (s.nlink i).toInt
    by_cases he : i = dp
    · simp only [he, if_true, true_and] at *
      omega
    · simp only [he, if_false, false_and] at *
      omega
  count := h.count
  named i := by
    intro de hde
    show de.named → s.type de.inum ≠ 0
    by_cases he : i = dp
    · subst he
      exact hnamed de (by simpa [State.setDir] using hde)
    · exact h.named i de (by simpa [State.setDir, he] using hde)
  free i hi := by
    have hne : i ≠ dp := fun he => hdir (he ▸ hi)
    refine ⟨(h.free i hi).1, ?_⟩
    show Function.update s.dir dp des i = []
    rw [Function.update_of_ne hne]
    exact (h.free i hi).2
  bound := h.bound

end Books

theorem changes_set {old : List Dirent} {k : Nat} (hk : k < old.length) (hz : old[k].inum = 0)
    (de : Dirent) : Changes old (old.set k de) de 1 := by
  intro p hp
  rw [List.countP_set hk, hp _ hz]
  by_cases h : p de <;> simp [h]

theorem changes_append (old : List Dirent) (de : Dirent) : Changes old (old ++ [de]) de 1 := by
  intro p _
  rw [List.countP_append, List.countP_singleton]
  by_cases h : p de <;> simp [h]

theorem changes_clear {old : List Dirent} {k : Nat} (hk : k < old.length) :
    Changes old (old.set k ⟨0, []⟩) old[k] (-1) := by
  intro p hp
  rw [List.countP_set hk, hp ⟨0, []⟩ rfl]
  by_cases h : p old[k]
  · have hpos : 0 < old.countP p := List.countP_pos_iff.2 ⟨_, List.getElem_mem hk, h⟩
    simp only [h, if_true, Bool.false_eq_true, if_false]
    omega
  · simp [h]

/-! ## dirlink -/

/-- What the books are about is the same. -/
structure Same (s s' : State) : Prop where
  type : s'.type = s.type
  nlink : s'.nlink = s.nlink
  dir : s'.dir = s.dir
  count : s'.count = s.count

theorem Same.refl (s : State) : Same s s := ⟨rfl, rfl, rfl, rfl⟩

theorem Same.trans {t : State} (h : Same s s') (h' : Same s' t) : Same s t :=
  ⟨h'.type.trans h.type, h'.nlink.trans h.nlink, h'.dir.trans h.dir, h'.count.trans h.count⟩

theorem Books.same (h : Books ninodes spare s) (hs : Same s s') : Books ninodes spare s' :=
  h.congr hs.type hs.dir hs.nlink hs.count

theorem balloc_same (s : State) (dp : Nat) : Same s (s.balloc dp).1 := by
  unfold State.balloc
  split
  next => exact .refl s
  next => exact ⟨rfl, rfl, rfl, rfl⟩

theorem bmap_same (s : State) (dp bn : Nat) : Same s (s.bmap dp bn).1 := by
  have h := balloc_same s dp
  unfold State.bmap
  split
  next =>
    split
    next t ht => exact (ht ▸ h).trans (balloc_same t dp)
    next t ht => exact ht ▸ h
  next => exact h

theorem extend_same (s : State) (dp : Nat) : Same s (s.extend dp).1 := by
  unfold State.extend
  simp only
  split
  next => exact .refl s
  next =>
    split
    next => exact bmap_same s dp _
    next => exact .refl s

variable {t : State} {inum : Nat} {name : List UInt8}

theorem dirlink_false (h : s.dirlink dp name inum = (t, false)) : Same s t := by
  have hsame := extend_same s dp
  unfold State.dirlink at h
  split at h
  next => exact (Prod.mk.inj h).1 ▸ .refl s
  next =>
    split at h
    next => cases (Prod.mk.inj h).2
    next =>
      split at h
      next => cases (Prod.mk.inj h).2
      next u hu =>
        rw [hu] at hsame
        exact (Prod.mk.inj h).1 ▸ hsame

/-- A new entry, in a hole or at the end. -/
theorem dirlink_true (h : s.dirlink dp name inum = (t, true)) :
    ∃ u des, Same s u ∧ t = u.setDir dp des ∧ Changes (s.dir dp) des ⟨inum, name⟩ 1 ∧
      ∀ de ∈ des, de ∈ s.dir dp ∨ de = ⟨inum, name⟩ := by
  have hsame := extend_same s dp
  unfold State.dirlink at h
  split at h
  next => cases (Prod.mk.inj h).2
  next =>
    split at h
    next k hk =>
      obtain ⟨hlt, hz, -⟩ := List.findIdx?_eq_some_iff_getElem.1 hk
      refine ⟨s, _, .refl s, (Prod.mk.inj h).1.symm, changes_set hlt (by simpa using hz) _, ?_⟩
      exact fun de hde => List.mem_or_eq_of_mem_set hde
    next =>
      split at h
      next u hu =>
        rw [hu] at hsame
        refine ⟨u, _, hsame, (Prod.mk.inj h).1.symm, ?_, fun de hde => ?_⟩
        · rw [hsame.dir]
          exact changes_append _ _
        · rw [← hsame.dir]
          simpa using hde
      next => cases (Prod.mk.inj h).2

theorem dirlink_type {ok : Bool} (h : s.dirlink dp name inum = (t, ok)) :
    t.type = s.type ∧ t.nlink = s.nlink := by
  cases ok with
  | false => exact ⟨(dirlink_false h).type, (dirlink_false h).nlink⟩
  | true =>
    obtain ⟨u, des, hs, rfl, -⟩ := dirlink_true h
    exact ⟨hs.type, hs.nlink⟩

/-- A new name uses up a link of its inode, and a new directory one of the
directory that it is in. -/
theorem Books.dirlink (h : Books ninodes spare s) (hdir : s.type dp ≠ 0)
    (hinum : s.type inum ≠ 0) (hl : s.dirlink dp name inum = (t, true)) :
    Books ninodes (fun i => spare i - (if inum = i then 1 else 0) -
      if i = dp ∧ s.type inum = T_DIR then 1 else 0) t := by
  obtain ⟨u, des, hs, rfl, hc, hmem⟩ := dirlink_true hl
  have hu := h.same hs
  refine (hu.setDir (e := ⟨inum, name⟩) (h.bound dp hdir) (hs.dir ▸ hc) ?_ (hs.type ▸ hdir)).weaken
    fun i => ?_
  · intro de hde hn
    rcases hmem de hde with hin | rfl
    · exact hu.named dp de (hs.dir ▸ hin) hn
    · rw [hs.type]
      exact hinum
  · rw [hs.type]
    by_cases hn : (⟨inum, name⟩ : Dirent).named = true
    · simp [hn]
    · simp only [hn, false_and, and_false, if_false, Bool.false_eq_true]
      split <;> split <;> omega

/-- "." and ".." are no names. -/
theorem Books.dirlink_dot (h : Books ninodes spare s) (hdir : s.type dp ≠ 0)
    (hname : name = dot ∨ name = dotdot) (hl : s.dirlink dp name inum = (t, true)) :
    Books ninodes spare t := by
  obtain ⟨u, des, hs, rfl, hc, hmem⟩ := dirlink_true hl
  have hu := h.same hs
  have hdot : (⟨inum, name⟩ : Dirent).named = false := by
    rcases hname with rfl | rfl <;> simp [Dirent.named]
  refine (hu.setDir (e := ⟨inum, name⟩) (h.bound dp hdir) (hs.dir ▸ hc) ?_ (hs.type ▸ hdir)).weaken
    fun i => ?_
  · intro de hde hn
    rcases hmem de hde with hin | rfl
    · exact hu.named dp de (hs.dir ▸ hin) hn
    · rw [hdot] at hn
      cases hn
  · simp [hdot]

/-! ## iput -/

/-- An inode that is freed has no names. -/
theorem Books.iput (h : Books ninodes spare s) (hspare : 0 ≤ spare ip) :
    Books ninodes spare (s.iput ip) := by
  unfold State.iput
  split
  next hfree =>
    have hno : s.names ninodes ip = 0 ∧ s.subdirs ip = 0 := by
      have := h.links ip
      rw [hfree.2] at this
      have hz : (0 : BitVec 16).toInt = 0 := rfl
      omega
    have hunnamed : ∀ d, ∀ de ∈ s.dir d, de.named → de.inum ≠ ip := by
      intro d de hde hn he
      have hdn : d < ninodes := h.bound d fun hz => by
        rw [(h.free d hz).2] at hde
        cases hde
      have hpos : 0 < (s.dir d).countP fun de => de.named && de.inum = ip :=
        List.countP_pos_iff.2 ⟨de, hde, by simp [hn, he]⟩
      have := Finset.single_le_sum (f := fun d => (s.dir d).countP fun de =>
        de.named && de.inum = ip) (fun _ _ => Nat.zero_le _) (Finset.mem_range.2 hdn)
      have : 0 < s.names ninodes ip := Nat.lt_of_lt_of_le hpos this
      omega
    have hsub : ∀ d, Function.update s.dir ip [] d = s.dir d ∨
        Function.update s.dir ip [] d = [] := by
      intro d
      by_cases he : d = ip
      · exact .inr (by simp [he])
      · exact .inl (by simp [he])
    have hnamed : ∀ d, ∀ de ∈ Function.update s.dir ip [] d, de.named →
        s.type de.inum ≠ 0 ∧ de.inum ≠ ip := by
      intro d de hde hn
      rcases hsub d with hd | hd
      · rw [hd] at hde
        exact ⟨h.named d de hde hn, hunnamed d de hde hn⟩
      · rw [hd] at hde
        cases hde
    refine ⟨fun i => ?_, h.count, fun d de hde hn => ?_, fun i hi => ?_, fun i hi => ?_⟩
    · refine Int.le_trans ?_ (h.links i)
      have h₁ : ∑ d ∈ Finset.range ninodes, (Function.update s.dir ip [] d).countP
          (fun de => de.named && de.inum = i) ≤ s.names ninodes i := by
        refine Finset.sum_le_sum fun d _ => ?_
        rcases hsub d with hd | hd <;> simp [hd]
      have h₂ : (Function.update s.dir ip [] i).countP (fun de => de.named &&
          Function.update s.type ip 0 de.inum = T_DIR) ≤ s.subdirs i := by
        unfold State.subdirs
        rcases hsub i with hd | hd
        · rw [hd]
          refine List.countP_mono_left fun de hde hp => ?_
          simp only [Bool.and_eq_true, decide_eq_true_eq] at hp ⊢
          refine ⟨hp.1, ?_⟩
          rw [← hp.2, Function.update_of_ne (hunnamed i de hde hp.1)]
        · simp [hd]
      show ((∑ d ∈ Finset.range ninodes, (Function.update s.dir ip [] d).countP
          (fun de => de.named && de.inum = i) : Nat) : Int) + ((Function.update s.dir ip [] i).countP
          (fun de => de.named && Function.update s.type ip 0 de.inum = T_DIR) : Nat) + spare i ≤ _
      omega
    · obtain ⟨htype, hne⟩ := hnamed d de hde hn
      show Function.update s.type ip 0 de.inum ≠ 0
      rw [Function.update_of_ne hne]
      exact htype
    · show s.nlink i = 0 ∧ Function.update s.dir ip [] i = []
      by_cases he : i = ip
      · exact ⟨he ▸ hfree.2, by simp [he]⟩
      · have hi : s.type i = 0 := by simpa [he] using hi
        simpa [he] using h.free i hi
    · by_cases he : i = ip
      · simp [he] at hi
      · exact h.bound i (by simpa [he] using hi)
  next => exact h

theorem Books.hold (h : Books ninodes spare s) (ip : Nat) : Books ninodes spare (s.hold ip) :=
  h.same ⟨rfl, rfl, rfl, rfl⟩

theorem Books.release (h : Books ninodes spare s) (hspare : 0 ≤ spare ip) :
    Books ninodes spare (s.release ip) := by
  have hsame : Same s { s with ref := Function.update s.ref ip (s.ref ip - 1) } :=
    ⟨rfl, rfl, rfl, rfl⟩
  exact (h.same hsame).iput hspare

/-! ## System calls -/

/-- The books are in order. -/
abbrev Balanced (ninodes : Nat) : State → Prop := Books ninodes fun _ => 0

theorem Books.balanced (h : Books ninodes spare s) (hspare : ∀ i, 0 ≤ spare i) :
    Balanced ninodes s := h.weaken hspare

/-- The step adds a link only to an inode that has fewer than 32767. -/
def Fits (ninodes : Nat) (s : State) : Event → Prop
  | .link ip (some dp) name => s.type ip ≠ T_DIR →
      ((s.addLink ip 1).dirlink dp name ip).2 = true → (s.nlink ip).toInt < 32767
  | .create dp name .dir _ => s.dirlookup dp name = none → ∀ ip ∈ s.ialloc ninodes,
      ((s.alloc ip .dir).enter dp name .dir ip).2 = true → (s.nlink dp).toInt < 32767
  | _ => True

instance decidableFits (ninodes : Nat) (s : State) : ∀ e, Decidable (Fits ninodes s e)
  | .link ip (some dp) name => inferInstanceAs (Decidable (s.type ip ≠ T_DIR →
      ((s.addLink ip 1).dirlink dp name ip).2 = true → (s.nlink ip).toInt < 32767))
  | .create dp name .dir _ => inferInstanceAs (Decidable (s.dirlookup dp name = none →
      ∀ ip ∈ s.ialloc ninodes, ((s.alloc ip .dir).enter dp name .dir ip).2 = true →
        (s.nlink dp).toInt < 32767))
  | .link _ none _ | .create _ _ .file _ | .create _ _ .device _ | .unlink _ _ | .hold _
  | .release _ => .isTrue trivial

theorem toInt_bounds (b : BitVec 16) : -32768 ≤ b.toInt ∧ b.toInt ≤ 32767 := by
  have h₁ := BitVec.le_toInt b
  have h₂ := BitVec.toInt_lt (x := b)
  omega

/-- A link that is added and taken away again changes nothing. -/
theorem Same.addLink_cancel (hs : Same (s.addLink ip 1) t) : Same s (t.addLink ip (-1)) where
  type := hs.type
  dir := hs.dir
  nlink := by
    funext i
    show Function.update t.nlink ip _ i = _
    rw [hs.nlink]
    by_cases he : i = ip
    · subst he
      simp only [State.addLink, Function.update_self]
      bv_omega
    · simp [State.addLink, he]
  count := by
    funext i
    show Function.update t.count ip _ i = _
    rw [hs.count]
    by_cases he : i = ip
    · subst he
      simp only [State.addLink, Function.update_self]
      omega
    · simp [State.addLink, he]

theorem iput_addLink (s : State) {d : Int} (hne : dp ≠ ip) :
    (s.iput dp).addLink ip d = (s.addLink ip d).iput dp := by
  have h : (s.addLink ip d).nlink dp = s.nlink dp := by simp [State.addLink, hne]
  unfold State.iput
  rw [h, show (s.addLink ip d).ref = s.ref from rfl]
  by_cases hfree : s.ref dp = 0 ∧ s.nlink dp = 0
  · rw [if_pos hfree, if_pos hfree]
    rfl
  · rw [if_neg hfree, if_neg hfree]

theorem Books.sys_link {r : Bool} (h : Balanced ninodes s) {dp : Option Nat}
    (hfits : Fits ninodes s (.link ip dp name)) (hs : s.sys_link ip dp name = .ok r s') :
    Balanced ninodes s' := by
  unfold State.sys_link at hs
  split at hs
  next => cases hs
  next htype =>
  split at hs
  next =>
    obtain ⟨-, rfl⟩ := Outcome.ok.inj hs
    exact h.iput le_rfl
  next hfile =>
  cases dp with
  | none =>
    obtain ⟨-, rfl⟩ := Outcome.ok.inj hs
    exact (h.same (Same.refl _).addLink_cancel).iput le_rfl
  | some dp =>
  simp only at hs
  split at hs
  next => cases hs
  next hdir =>
  have hdir : s.type dp = T_DIR := not_not.1 hdir
  have hne : dp ≠ ip := fun he => hfile (he ▸ hdir)
  split at hs
  next u hu =>
    obtain ⟨-, rfl⟩ := Outcome.ok.inj hs
    have hlt := hfits hfile (by rw [hu])
    have hlo := (toInt_bounds (s.nlink ip)).1
    have h₁ := h.addLink ip 1 htype (by omega)
    have h₂ := h₁.dirlink (by rw [show (s.addLink ip 1).type = s.type from rfl, hdir]; decide)
      htype hu
    have h₃ := h₂.balanced fun i => by
      have hno : ¬ (i = dp ∧ (s.addLink ip 1).type ip = T_DIR) := fun hboth => hfile hboth.2
      rw [if_neg hno]
      by_cases he : i = ip
      · simp [he]
      · simp [he, Ne.symm he]
    exact (h₃.iput le_rfl).iput le_rfl
  next u hu =>
    obtain ⟨-, rfl⟩ := Outcome.ok.inj hs
    rw [iput_addLink u hne]
    exact ((h.same (dirlink_false hu).addLink_cancel).iput le_rfl).iput le_rfl

/-! ## create -/

theorem Books.alloc (h : Balanced ninodes s) (made : Made) (hfree : s.type ip = 0)
    (hlt : ip < ninodes) :
    Books ninodes (fun i => if i = ip then 1 else 0) (s.alloc ip made) := by
  have hnames := h.names_free hfree
  obtain ⟨hzero, hempty⟩ := h.free ip hfree
  have hnamed : ∀ d, ∀ de ∈ s.dir d, de.named → de.inum ≠ ip := fun d de hde hn he =>
    h.named d de hde hn (he ▸ hfree)
  have hmade : made.type ≠ 0 := by cases made <;> decide
  refine ⟨fun i => ?_, fun i => ?_, fun d de hde hn => ?_, fun i hi => ?_, fun i hi => ?_⟩
  · have hsub : (s.alloc ip made).subdirs i = s.subdirs i := by
      refine List.countP_congr fun de hde => ?_
      by_cases hn : de.named
      · simp [State.alloc, State.addLink, hn, hnamed i de hde hn]
      · simp [hn]
    rw [hsub, show (s.alloc ip made).names ninodes i = s.names ninodes i from rfl]
    have hlinks := h.links i
    by_cases he : i = ip
    · subst he
      have hs0 : s.subdirs i = 0 := by simp [State.subdirs, hempty]
      simp [State.alloc, State.addLink, hnames, hs0]
    · simpa [State.alloc, State.addLink, he] using hlinks
  · by_cases he : i = ip
    · subst he
      have hc := h.count i
      rw [hzero] at hc
      simp [State.alloc, State.addLink, ← hc]
    · simpa [State.alloc, State.addLink, he] using h.count i
  · show Function.update s.type ip made.type de.inum ≠ 0
    rw [Function.update_of_ne (hnamed d de hde hn)]
    exact h.named d de hde hn
  · by_cases he : i = ip
    · exact absurd (by simpa [State.alloc, State.addLink, he] using hi) hmade
    · simpa [State.alloc, State.addLink, he] using
        h.free i (by simpa [State.alloc, State.addLink, he] using hi)
  · by_cases he : i = ip
    · exact he ▸ hlt
    · exact h.bound i (by simpa [State.alloc, State.addLink, he] using hi)

theorem dots_type {made : Made} {ok : Bool} (h : s.dots dp ip made = (t, ok)) :
    t.type = s.type ∧ t.nlink = s.nlink := by
  unfold State.dots at h
  split at h
  next =>
    split at h
    next u hu =>
      obtain ⟨h₁, h₂⟩ := dirlink_type hu
      obtain ⟨h₃, h₄⟩ := dirlink_type h
      exact ⟨h₃.trans h₁, h₄.trans h₂⟩
    next u hu => exact (Prod.mk.inj h).1 ▸ dirlink_type hu
  next => exact (Prod.mk.inj h).1 ▸ ⟨rfl, rfl⟩

theorem enter_type {made : Made} {ok : Bool} (h : s.enter dp name made ip = (t, ok)) :
    t.type = s.type ∧ t.nlink = s.nlink := by
  unfold State.enter at h
  split at h
  next u hu =>
    obtain ⟨h₁, h₂⟩ := dots_type hu
    obtain ⟨h₃, h₄⟩ := dirlink_type h
    exact ⟨h₃.trans h₁, h₄.trans h₂⟩
  next u hu => exact (Prod.mk.inj h).1 ▸ dots_type hu

theorem Books.dots {made : Made} {ok : Bool} (h : Books ninodes spare s) (hip : s.type ip ≠ 0)
    (hd : s.dots dp ip made = (t, ok)) : Books ninodes spare t := by
  unfold State.dots at hd
  split at hd
  next =>
    split at hd
    next u hu =>
      have hu' := h.dirlink_dot hip (.inl rfl) hu
      have hip' : u.type ip ≠ 0 := (dirlink_type hu).1 ▸ hip
      cases ok with
      | true => exact hu'.dirlink_dot hip' (.inr rfl) hd
      | false => exact hu'.same (dirlink_false hd)
    next u hu => exact (Prod.mk.inj hd).1 ▸ h.same (dirlink_false hu)
  next => exact (Prod.mk.inj hd).1 ▸ h

theorem Books.enter {made : Made} (h : Books ninodes spare s) (hip : s.type ip ≠ 0)
    (hdp : s.type dp ≠ 0) (he : s.enter dp name made ip = (t, true)) :
    Books ninodes (fun i => spare i - (if ip = i then 1 else 0) -
      if i = dp ∧ s.type ip = T_DIR then 1 else 0) t := by
  unfold State.enter at he
  split at he
  next u hu =>
    have htype := (dots_type hu).1
    have hu' := (h.dots hip hu).dirlink (htype ▸ hdp) (htype ▸ hip) he
    rw [htype] at hu'
    exact hu'
  next => cases (Prod.mk.inj he).2

theorem Books.enter_false {made : Made} (h : Books ninodes spare s) (hip : s.type ip ≠ 0)
    (he : s.enter dp name made ip = (t, false)) : Books ninodes spare t := by
  unfold State.enter at he
  split at he
  next u hu => exact (h.dots hip hu).same (dirlink_false he)
  next u hu => exact (Prod.mk.inj he).1 ▸ h.dots hip hu

theorem ialloc_some {n : Nat} (h : s.ialloc n = some ip) : s.type ip = 0 ∧ ip < n := by
  have hfind := List.find?_some h
  have hmem := List.mem_of_find?_eq_some h
  rw [List.mem_range'_1] at hmem
  exact ⟨by simpa using hfind, by omega⟩

theorem Books.createNew {made : Made} {keep r : Bool} (h : Balanced ninodes s)
    (hdir : s.type dp = T_DIR) (hlook : s.dirlookup dp name = none)
    (halloc : s.ialloc ninodes = some ip) (hfits : Fits ninodes s (.create dp name made keep))
    (hs : s.createNew dp name made keep ip = .ok r s') : Balanced ninodes s' := by
  obtain ⟨hfree, hlt⟩ := ialloc_some halloc
  have hne : dp ≠ ip := by
    intro he
    rw [he, hfree] at hdir
    cases hdir
  have hmade : made.type ≠ 0 := by cases made <;> decide
  have h₁ := h.alloc made hfree hlt
  have hip : (s.alloc ip made).type ip = made.type := by simp [State.alloc, State.addLink]
  have hdp : (s.alloc ip made).type dp = T_DIR := by
    simp [State.alloc, State.addLink, hne, hdir]
  have hn : (s.alloc ip made).nlink ip = 1 := by simp [State.alloc, State.addLink]
  have hndp : (s.alloc ip made).nlink dp = s.nlink dp := by
    simp [State.alloc, State.addLink, hne]
  unfold State.createNew at hs
  split at hs
  next u hu =>
    obtain ⟨-, rfl⟩ := Outcome.ok.inj hs
    have h₂ := h₁.enter (hip ▸ hmade) (by rw [hdp]; decide) hu
    rw [hip] at h₂
    obtain ⟨htype, hnlink⟩ := enter_type hu
    have hplain : made.type ≠ T_DIR → Balanced ninodes u := fun hno => h₂.balanced fun i => by
      by_cases hi : i = ip
      · simp [hi, hno]
      · simp [hi, Ne.symm hi, hno]
    -- The link for ".." makes up for the new subdirectory.
    have h₃ : Balanced ninodes (u.linkParent dp made) := by
      cases made with
      | dir =>
        have hlim := hfits hlook ip halloc (by rw [hu])
        have hlo := (toInt_bounds (s.nlink dp)).1
        have hudp : (u.nlink dp).toInt = (s.nlink dp).toInt := by rw [hnlink, hndp]
        refine (h₂.addLink dp 1 (by rw [htype, hdp]; decide) (by omega)).balanced
          fun i => ?_
        by_cases hi : i = dp
        · simp [hi, hne, Made.type, Ne.symm hne]
        · by_cases hi' : i = ip
          · simp [hi', Ne.symm hne]
          · simp [hi, hi', Ne.symm hi']
      | file => exact hplain (by decide)
      | device => exact hplain (by decide)
    cases keep with
    | true => exact (h₃.iput le_rfl).hold ip
    | false => exact (h₃.iput le_rfl).iput le_rfl
  next u hu =>
    obtain ⟨-, rfl⟩ := Outcome.ok.inj hs
    obtain ⟨htype, hnlink⟩ := enter_type hu
    have h₂ := h₁.enter_false (hip ▸ hmade) hu
    have hone : (u.nlink ip).toInt = 1 := by rw [hnlink, hn]; rfl
    have h₃ := (h₂.addLink ip (-1) (by rw [htype, hip]; exact hmade)
      (by omega)).balanced fun i => by
        by_cases hi : i = ip <;> simp [hi]
    exact (h₃.iput le_rfl).iput le_rfl

theorem Books.create {made : Made} {keep r : Bool} (h : Balanced ninodes s)
    (hfits : Fits ninodes s (.create dp name made keep))
    (hs : s.create ninodes dp name made keep = .ok r s') : Balanced ninodes s' := by
  unfold State.create at hs
  split at hs
  next => cases hs
  next hdir =>
  split at hs
  next ip k hlook =>
    unfold State.createFound at hs
    split at hs
    next => cases hs
    next =>
      split at hs
      next =>
        obtain ⟨-, rfl⟩ := Outcome.ok.inj hs
        cases keep with
        | true => exact (h.iput le_rfl).hold ip
        | false => exact (h.iput le_rfl).iput le_rfl
      next =>
        obtain ⟨-, rfl⟩ := Outcome.ok.inj hs
        exact (h.iput le_rfl).iput le_rfl
  next hlook =>
    split at hs
    next =>
      obtain ⟨-, rfl⟩ := Outcome.ok.inj hs
      exact h.iput le_rfl
    next ip halloc => exact h.createNew (not_not.1 hdir) hlook halloc hfits hs

/-! ## unlink -/

theorem dirlookup_some {k : Nat} (h : s.dirlookup dp name = some (inum, k)) :
    ∃ hk : k < (s.dir dp).length, (s.dir dp)[k].inum = inum ∧ inum ≠ 0 ∧
      (s.dir dp)[k].name = name := by
  unfold State.dirlookup at h
  split at h
  next j hj =>
    obtain ⟨hlt, hp, -⟩ := List.findIdx?_eq_some_iff_getElem.1 hj
    rw [List.getElem?_eq_getElem hlt] at h
    obtain ⟨hi, rfl⟩ := Prod.mk.inj (Option.some.inj h)
    simp only [Bool.decide_and, ne_eq, decide_not, Bool.and_eq_true, Bool.not_eq_true',
      decide_eq_false_iff_not, decide_eq_true_eq] at hp
    exact ⟨hlt, hi, hi ▸ hp.1, hp.2⟩
  next => cases h

/-- An inode that has a name has a link. -/
theorem Books.linked {k : Nat} (h : Balanced ninodes s)
    (hname : ¬ (name = dot ∨ name = dotdot)) (hlook : s.dirlookup dp name = some (inum, k)) :
    s.type inum ≠ 0 ∧ s.type dp ≠ 0 ∧ 1 ≤ (s.nlink inum).toInt ∧
      (s.type inum = T_DIR → 1 ≤ (s.nlink dp).toInt) := by
  obtain ⟨hk, hi, hz, hn⟩ := dirlookup_some hlook
  have hmem : (s.dir dp)[k] ∈ s.dir dp := List.getElem_mem hk
  have hnamed : (s.dir dp)[k].named = true := by
    rw [not_or] at hname
    simp [Dirent.named, hi, hz, hn, hname]
  have hdp : s.type dp ≠ 0 := fun h0 => List.ne_nil_of_mem hmem (h.free dp h0).2
  have hpos : 0 < (s.dir dp).countP fun de => de.named && de.inum = inum :=
    List.countP_pos_iff.2 ⟨_, hmem, by simp [hnamed, hi]⟩
  have hle : (s.dir dp).countP (fun de => de.named && de.inum = inum) ≤ s.names ninodes inum :=
    Finset.single_le_sum (f := fun d => (s.dir d).countP fun de => de.named && de.inum = inum)
      (fun _ _ => Nat.zero_le _) (Finset.mem_range.2 (h.bound dp hdp))
  have hlinks := h.links inum
  refine ⟨hi ▸ h.named dp _ hmem hnamed, hdp, by omega, fun hdir => ?_⟩
  have hsub : 0 < s.subdirs dp := List.countP_pos_iff.2 ⟨_, hmem, by simp [hnamed, hi, hdir]⟩
  have hlinks' := h.links dp
  omega

theorem iput_nlink (s : State) (ip : Nat) : (s.iput ip).nlink = s.nlink := by
  unfold State.iput
  split <;> rfl

/-- An inode with a spare link is not freed. -/
theorem Books.iput_type (h : Books ninodes spare s) (htype : s.type ip ≠ 0)
    (hspare : 0 < spare ip) (dp : Nat) : (s.iput dp).type ip ≠ 0 := by
  have hlinks := h.links ip
  unfold State.iput
  split
  next hfree =>
    have hne : ip ≠ dp := by
      intro he
      have hz : (s.nlink ip).toInt = 0 := by rw [he, hfree.2]; rfl
      omega
    show Function.update s.type dp 0 ip ≠ 0
    rw [Function.update_of_ne hne]
    exact htype
  next => exact htype

/-- The last step of `sys_unlink` takes a link that no name needs. -/
theorem Books.dropName (h : Books ninodes (fun i => if i = ip then 1 else 0) s)
    (htype : s.type ip ≠ 0) (dp : Nat) :
    Balanced ninodes (((s.iput dp).addLink ip (-1)).iput ip) := by
  have hput : Books ninodes _ (s.iput dp) := h.iput (by split <;> decide)
  have hlinks := h.links ip
  have hhi := (toInt_bounds (s.nlink ip)).2
  rw [if_pos rfl] at hlinks
  refine ((hput.addLink ip (-1) (h.iput_type htype (by simp) dp) ?_).balanced
    fun i => ?_).iput le_rfl
  · rw [iput_nlink]
    omega
  · by_cases hi : i = ip <;> simp [hi]

theorem Books.unlinkFound {k : Nat} {r : Bool} (h : Balanced ninodes s)
    (hname : ¬ (name = dot ∨ name = dotdot)) (hlook : s.dirlookup dp name = some (ip, k))
    (hs : s.unlinkFound dp k ip = .ok r s') : Balanced ninodes s' := by
  obtain ⟨htype, hdp, hone, hparent⟩ := h.linked hname hlook
  obtain ⟨hk, hi, hz, hn⟩ := dirlookup_some hlook
  have hnamed : (s.dir dp)[k].named = true := by
    rw [not_or] at hname
    simp [Dirent.named, hi, hz, hn, hname]
  unfold State.unlinkFound at hs
  split at hs
  next => cases hs
  next =>
  split at hs
  next => cases hs
  next =>
  split at hs
  next =>
    obtain ⟨-, rfl⟩ := Outcome.ok.inj hs
    exact (h.iput le_rfl).iput le_rfl
  next =>
  obtain ⟨-, rfl⟩ := Outcome.ok.inj hs
  have h₁ := h.setDir (h.bound dp hdp) (changes_clear hk) (by
    intro de hde hnd
    rcases List.mem_or_eq_of_mem_set hde with hin | rfl
    · exact h.named dp de hin hnd
    · simp [Dirent.named] at hnd) hdp
  simp only [hnamed, hi, true_and] at h₁
  split
  next hdir =>
    have hdir : s.type ip = T_DIR := hdir
    have hpar := hparent hdir
    have hhi := (toInt_bounds (s.nlink dp)).2
    have h₂ := h₁.addLink dp (-1) hdp (by
      show -32768 ≤ (s.nlink dp).toInt + -1 ∧ (s.nlink dp).toInt + -1 ≤ 32767
      omega)
    refine (h₂.weaken fun i => ?_).dropName htype dp
    simp only [hdir, and_true]
    split_ifs <;> omega
  next hfile =>
    have hfile : s.type ip ≠ T_DIR := hfile
    refine (h₁.weaken fun i => ?_).dropName htype dp
    by_cases hip : i = ip
    · simp [hip, hfile]
    · simp [hip, Ne.symm hip, hfile]

theorem Books.sys_unlink {r : Bool} (h : Balanced ninodes s)
    (hs : s.sys_unlink dp name = .ok r s') : Balanced ninodes s' := by
  unfold State.sys_unlink at hs
  split at hs
  next => cases hs
  next =>
  split at hs
  next =>
    obtain ⟨-, rfl⟩ := Outcome.ok.inj hs
    exact h.iput le_rfl
  next hname =>
  split at hs
  next ip k hlook => exact h.unlinkFound hname hlook hs
  next =>
    obtain ⟨-, rfl⟩ := Outcome.ok.inj hs
    exact h.iput le_rfl

/-! ## Runs -/

/-- Every step whose links fit keeps the books in order. -/
theorem Books.step {e : Event} {r : Bool} (h : Balanced ninodes s) (hfits : Fits ninodes s e)
    (hs : s.step ninodes e = .ok r s') : Balanced ninodes s' := by
  cases e with
  | link ip dp name => exact h.sys_link hfits hs
  | create dp name made keep => exact h.create hfits hs
  | unlink dp name => exact h.sys_unlink hs
  | hold ip =>
    simp only [State.step] at hs
    split at hs
    next => cases hs
    next =>
      obtain ⟨-, rfl⟩ := Outcome.ok.inj hs
      exact h.hold ip
  | release ip =>
    simp only [State.step] at hs
    split at hs
    next => cases hs
    next =>
      obtain ⟨-, rfl⟩ := Outcome.ok.inj hs
      exact h.release le_rfl

theorem createFound_panic {made : Made} {keep : Bool} {msg : String}
    (h : s.createFound ip made keep = .panic msg) : msg = "ilock: no type" := by
  unfold State.createFound at h
  split at h
  next => exact (Outcome.panic.inj h).symm
  next => split at h <;> cases h

theorem createNew_ok (s : State) (dp : Nat) (name : List UInt8) (made : Made) (keep : Bool)
    (ip : Nat) : ∃ r t, s.createNew dp name made keep ip = .ok r t := by
  unfold State.createNew
  split <;> exact ⟨_, _, rfl⟩

/-- With the books in order no step finds an inode that has a name and no link. -/
theorem Books.no_panic (h : Balanced ninodes s) (e : Event) :
    s.step ninodes e ≠ .panic "unlink: nlink < 1" := by
  intro hs
  cases e with
  | link ip dp name =>
    simp only [State.step, State.sys_link] at hs
    split at hs
    next => simp at hs
    next =>
    split at hs
    next => cases hs
    next =>
    split at hs
    next => cases hs
    next =>
    split at hs
    next => simp at hs
    next => split at hs <;> cases hs
  | create dp name made keep =>
    simp only [State.step, State.create] at hs
    split at hs
    next => simp at hs
    next =>
    split at hs
    next =>
      have hmsg := createFound_panic hs
      simp at hmsg
    next =>
    split at hs
    next => cases hs
    next ip _ =>
      obtain ⟨r, t, hok⟩ := createNew_ok s dp name made keep ip
      cases hok.symm.trans hs
  | unlink dp name =>
    simp only [State.step, State.sys_unlink] at hs
    split at hs
    next => simp at hs
    next =>
    split at hs
    next => cases hs
    next hname =>
    split at hs
    next ip k hlook =>
      have hone := (h.linked hname hlook).2.2.1
      unfold State.unlinkFound at hs
      split at hs
      next => simp at hs
      next =>
      split at hs
      next => omega
      next => split at hs <;> cases hs
    next => cases hs
  | hold ip =>
    simp only [State.step] at hs
    split at hs
    next => simp at hs
    next => cases hs
  | release ip =>
    simp only [State.step] at hs
    split at hs <;> cases hs

/-- Every link count is the number of links, and `unlink` finds no inode without
one. -/
structure Sound (ninodes : Nat) (s : State) : Prop where
  range : ∀ i, 0 ≤ (s.nlink i).toInt ∧ (s.nlink i).toInt ≤ 32767
  count : ∀ i, (s.nlink i).toInt = s.count i
  unlink : ∀ e, s.step ninodes e ≠ .panic "unlink: nlink < 1"

theorem Books.sound (h : Balanced ninodes s) : Sound ninodes s where
  range i := by
    have hlinks := h.links i
    exact ⟨by omega, (toInt_bounds (s.nlink i)).2⟩
  count := h.count
  unlink := h.no_panic

/-- In a new file system every entry of the root directory names a file. -/
theorem Initial.entry (h : Initial ninodes s) {d : Nat} {de : Dirent} (hde : de ∈ s.dir d)
    (hn : de.named) : d = ROOTINO ∧ s.type de.inum ≠ 0 ∧ de.inum ≠ ROOTINO := by
  have hd : d = ROOTINO := by
    by_contra hne
    exact List.ne_nil_of_mem hde (h.plain d hne).2.1
  have hn : de.inum ≠ 0 ∧ de.name ≠ dot ∧ de.name ≠ dotdot := by simpa [Dirent.named] using hn
  exact ⟨hd, h.named de (hd ▸ hde) hn.1 hn.2.1 hn.2.2⟩

theorem Initial.names_le (h : Initial ninodes s) (i : Nat) : s.names ninodes i ≤ 1 := by
  have hlt : ROOTINO < ninodes := h.bound _ (by rw [h.root.1]; decide)
  have hsum : s.names ninodes i =
      (s.dir ROOTINO).countP fun de => de.named && de.inum = i := by
    refine Finset.sum_eq_single_of_mem ROOTINO (Finset.mem_range.2 hlt) fun d _ hne => ?_
    simp [(h.plain d hne).2.1]
  have hle := List.nodup_iff_count_le_one.1 h.once i
  rw [List.count, List.countP_map, List.countP_filter] at hle
  rw [hsum]
  refine Nat.le_trans (Nat.le_of_eq (List.countP_congr fun de _ => ?_)) hle
  simp only [Dirent.named, Function.comp, Bool.and_eq_true, beq_iff_eq, decide_eq_true_eq]
  exact and_comm

theorem Initial.balanced (h : Initial ninodes s) : Balanced ninodes s where
  links i := by
    have hsub : s.subdirs i = 0 := List.countP_eq_zero.2 fun de hde hp => by
      simp only [Bool.and_eq_true, decide_eq_true_eq] at hp
      exact (h.plain _ (h.entry hde hp.1).2.2).1 hp.2
    have hle := h.names_le i
    by_cases hi : i = ROOTINO
    · have hone : (s.nlink i).toInt = 1 := by rw [hi, h.root.2]; rfl
      omega
    · by_cases hz : s.type i = 0
      · have hnames : s.names ninodes i = 0 := by
          refine Finset.sum_eq_zero fun d _ => List.countP_eq_zero.2 fun de hde hp => ?_
          simp only [Bool.and_eq_true, decide_eq_true_eq] at hp
          exact (h.entry hde hp.1).2.1 (hp.2 ▸ hz)
        have hlink : (s.nlink i).toInt = 0 := by rw [(h.plain i hi).2.2, if_pos hz]; rfl
        omega
      · have hlink : (s.nlink i).toInt = 1 := by rw [(h.plain i hi).2.2, if_neg hz]; rfl
        omega
  count i := (h.count i).symm
  named d de hde hn := (h.entry hde hn).2.1
  free i hi := by
    have hne : i ≠ ROOTINO := by
      intro he
      rw [he, h.root.1] at hi
      cases hi
    obtain ⟨-, hdir, hlink⟩ := h.plain i hne
    rw [if_pos hi] at hlink
    exact ⟨hlink, hdir⟩
  bound := h.bound

/-- In every run that adds links only to inodes with fewer than 32767, every
state that is reached has sound link counts. -/
theorem links_sound {s₀ : State} {es : List Event} (hinit : Initial ninodes s₀)
    (hfits : (machine ninodes).Meets (Fits ninodes) s₀ es)
    (hrun : (machine ninodes).exec s₀ es = some s) : Sound ninodes s := by
  have hstep : ∀ s e s', Balanced ninodes s → Fits ninodes s e →
      (machine ninodes).next s e = some s' → Balanced ninodes s' := by
    intro s e s' h hf hn
    simp only [machine] at hn
    split at hn
    next r t ht =>
      obtain rfl := Option.some.inj hn
      exact h.step hf ht
    next => cases hn
  exact Books.sound (hfits.invariant hinit.balanced hstep hrun)

/-! ## One link too many -/

/-- The `k`th of many different names. -/
def nth (k : Nat) : List UInt8 :=
  [UInt8.ofNat (65 + k % 64), UInt8.ofNat (65 + k / 64 % 64), UInt8.ofNat (65 + k / 4096)]

theorem nth_inj {j k : Nat} (hj : j < 65536) (hk : k < 65536) (h : nth j = nth k) : j = k := by
  simp only [nth, List.cons.injEq, and_true] at h
  obtain ⟨h₁, h₂, h₃⟩ := h
  have hof : ∀ a b : Nat, a < 256 → b < 256 → UInt8.ofNat a = UInt8.ofNat b → a = b := by
    intro a b ha hb he
    have := congrArg UInt8.toNat he
    rwa [UInt8.toNat_ofNat_of_lt' ha, UInt8.toNat_ofNat_of_lt' hb] at this
  have := hof _ _ (by omega) (by omega) h₁
  have := hof _ _ (by omega) (by omega) h₂
  have := hof _ _ (by omega) (by omega) h₃
  omega

/-- How many blocks a directory with `k` names has. -/
def blocksFor (k : Nat) : Nat := (k + 65) / 64 + if 766 < k then 1 else 0

/-- The directory `d` has `k` names, all of inode 2, which has `m` links. -/
structure Filled (d k m room : Nat) (s : State) : Prop where
  file : s.type 2 = T_FILE
  type : s.type d = T_DIR
  dir : s.dir d = ⟨d, dot⟩ :: ⟨ROOTINO, dotdot⟩ :: (List.range k).map fun j => ⟨2, nth j⟩
  parent : s.nlink d = 1
  blocks : s.blocks d = blocksFor k
  free : s.free + s.blocks d = room
  nlink : s.nlink 2 = BitVec.ofNat 16 m
  count : s.count 2 = m

/-- Only the directory `d` and the links of inode 2 have changed. -/
structure Beside (d : Nat) (s s' : State) : Prop where
  type : s'.type = s.type
  dir : ∀ e, e ≠ d → s'.dir e = s.dir e
  blocks : ∀ e, e ≠ d → s'.blocks e = s.blocks e
  nlink : ∀ e, e ≠ 2 → s'.nlink e = s.nlink e

variable {d k m room : Nat}

/-- A directory gets another block when the last one is full, and the indirect
block when it has more than 12. -/
theorem extend_filled (hlen : (s.dir d).length = k + 2) (hblocks : s.blocks d = blocksFor k)
    (hfree : s.free + s.blocks d = room) (hroom : 269 ≤ room) (hk : k + 3 ≤ 17152) :
    ∃ u, s.extend d = (u, true) ∧ Same s u ∧ u.blocks d = blocksFor (k + 1) ∧
      u.free + u.blocks d = room ∧ ∀ e, e ≠ d → u.blocks e = s.blocks e := by
  have hone : ∀ t : State, 0 < t.free → t.balloc d = ({ t with
      free := t.free - 1
      blocks := Function.update t.blocks d (t.blocks d + 1) }, true) := fun t ht =>
    if_neg (by omega)
  have hsize : MAXFILE * BSIZE = 274432 := rfl
  have hbsize : BSIZE = 1024 := rfl
  have hndirect : NDIRECT = 12 := rfl
  unfold blocksFor at *
  unfold State.extend
  simp only [hlen, hsize]
  rw [if_neg (by omega), hbsize]
  by_cases hb : 16 * (k + 2) % 1024 = 0
  · rw [if_pos hb]
    have hdiv : 16 * (k + 2) / 1024 = (k + 2) / 64 := by omega
    unfold State.bmap
    rw [hdiv, hndirect]
    by_cases hind : 12 ≤ (k + 2) / 64 ∧ s.blocks d ≤ (k + 2) / 64
    · rw [if_pos hind, hone s (by split_ifs at hblocks <;> omega)]
      refine ⟨_, hone _ ?_, ⟨rfl, rfl, rfl, rfl⟩, ?_, ?_, ?_⟩
      · show 0 < s.free - 1
        split_ifs at hblocks <;> omega
      · simp only [Function.update_self]
        split_ifs at hblocks ⊢ <;> omega
      · simp only [Function.update_self]
        split_ifs at hblocks <;> omega
      · intro e he
        simp [he]
    · rw [if_neg hind]
      refine ⟨_, hone s ?_, ⟨rfl, rfl, rfl, rfl⟩, ?_, ?_, ?_⟩
      · split_ifs at hblocks <;> omega
      · simp only [Function.update_self]
        split_ifs at hblocks ⊢ <;> omega
      · simp only [Function.update_self]
        split_ifs at hblocks <;> omega
      · intro e he
        simp [he]
  · rw [if_neg hb]
    refine ⟨s, rfl, .refl s, ?_, hfree, fun _ _ => rfl⟩
    split_ifs at hblocks ⊢ <;> omega

theorem Filled.dirlookup (h : Filled d k m room s) (hk : k < 65536) :
    s.dirlookup d (nth k) = none := by
  have hnone : ((s.dir d).findIdx? fun de => de.inum ≠ 0 ∧ de.name = nth k) = none := by
    rw [List.findIdx?_eq_none_iff, h.dir]
    intro de hde
    simp only [List.mem_cons, List.mem_map, List.mem_range] at hde
    rcases hde with rfl | rfl | ⟨j, hj, rfl⟩
    · simp [nth, dot]
    · simp [nth, dotdot]
    · have hne : nth j ≠ nth k := fun he => by
        have := nth_inj (by omega) hk he
        omega
      simp [hne]
  rw [State.dirlookup, hnone]

theorem iput_of_nlink (h : s.nlink ip ≠ 0) : s.iput ip = s := if_neg fun hboth => h hboth.2

/-- One more link. -/
theorem Filled.link (h : Filled d k m room s) (ninodes : Nat) (hd : d ≠ 0 ∧ d ≠ 2) (hroom : 269 ≤ room)
    (hk : k + 3 ≤ 17152) (hm : m + 1 < 65536) :
    ∃ t, s.step ninodes (.link 2 (some d) (nth k)) = .ok true t ∧
      Filled d (k + 1) (m + 1) room t ∧ Beside d s t := by
  have hlen : ((s.addLink 2 1).dir d).length = k + 2 := by
    show (s.dir d).length = k + 2
    simp [h.dir]
  obtain ⟨u, hext, hsame, hblocks, hfree, hother⟩ := extend_filled hlen h.blocks h.free hroom hk
  have hhole : ((s.dir d).findIdx? fun de => de.inum = 0) = none := by
    rw [List.findIdx?_eq_none_iff, h.dir]
    intro de hde
    simp only [List.mem_cons, List.mem_map, List.mem_range] at hde
    rcases hde with rfl | rfl | ⟨j, hj, rfl⟩
    · simp [hd.1]
    · simp [ROOTINO]
    · simp
  have hlink : (s.addLink 2 1).dirlink d (nth k) 2 =
      (u.setDir d (s.dir d ++ [⟨2, nth k⟩]), true) := by
    have hlook : (s.addLink 2 1).dirlookup d (nth k) = none := h.dirlookup (by omega)
    have hhole' : (((s.addLink 2 1).dir d).findIdx? fun de => de.inum = 0) = none := hhole
    unfold State.dirlink
    rw [hlook, hhole', hext]
    show (u.setDir d (u.dir d ++ [⟨2, nth k⟩]), true) = _
    rw [hsame.dir]
    rfl
  have hn2 : u.nlink 2 = BitVec.ofNat 16 (m + 1) := by
    rw [hsame.nlink]
    simp only [State.addLink, Function.update_self, h.nlink]
    bv_omega
  have hnd : u.nlink d = 1 := by
    rw [hsame.nlink]
    simp [State.addLink, hd.2, h.parent]
  have hput : ((u.setDir d (s.dir d ++ [⟨2, nth k⟩])).iput d).iput 2 =
      u.setDir d (s.dir d ++ [⟨2, nth k⟩]) := by
    have h₂ : (u.setDir d (s.dir d ++ [⟨2, nth k⟩])).nlink 2 ≠ 0 := by
      show u.nlink 2 ≠ 0
      rw [hn2]
      bv_omega
    have hd' : (u.setDir d (s.dir d ++ [⟨2, nth k⟩])).nlink d ≠ 0 := by
      show u.nlink d ≠ 0
      rw [hnd]
      decide
    rw [iput_of_nlink hd', iput_of_nlink h₂]
  refine ⟨u.setDir d (s.dir d ++ [⟨2, nth k⟩]), ?_, ?_, ?_⟩
  · have htype : (s.addLink 2 1).type d = T_DIR := h.type
    simp only [State.step, State.sys_link]
    rw [if_neg (by rw [h.file]; decide), if_neg (by rw [h.file]; decide),
      if_neg (not_not.2 htype), hlink]
    simp only [hput]
  · refine ⟨?_, ?_, ?_, hnd, hblocks, hfree, hn2, ?_⟩
    · show u.type 2 = T_FILE
      rw [hsame.type]
      exact h.file
    · show u.type d = T_DIR
      rw [hsame.type]
      exact h.type
    · show Function.update u.dir d _ d = _
      rw [Function.update_self, h.dir, List.range_succ]
      simp
    · show u.count 2 = _
      rw [hsame.count]
      simp [State.addLink, h.count]
  · refine ⟨hsame.type, ?_, hother, ?_⟩
    · intro e he
      show Function.update u.dir d _ e = s.dir e
      rw [Function.update_of_ne he, hsame.dir]
      rfl
    · intro e he
      show u.nlink e = s.nlink e
      rw [hsame.nlink]
      simp [State.addLink, he]

/-- `n` links to inode 2. -/
def links (d n : Nat) : List Event := (List.range n).map fun j => .link 2 (some d) (nth j)

/-- The directory is filled by one call after another. -/
theorem Filled.run (h : Filled d 0 m room s) (ninodes : Nat) (hd : d ≠ 0 ∧ d ≠ 2)
    (hroom : 269 ≤ room) (n : Nat) (hn : n + 2 ≤ 17152) (hm : m + n < 65536) :
    ∃ t, (machine ninodes).exec s (links d n) = some t ∧ Filled d n (m + n) room t ∧
      Beside d s t := by
  induction n with
  | zero => exact ⟨s, rfl, h, rfl, fun _ _ => rfl, fun _ _ => rfl, fun _ _ => rfl⟩
  | succ n ih =>
    obtain ⟨t, hrun, hfilled, hbeside⟩ := ih (by omega) (by omega)
    obtain ⟨u, hstep, hfilled', hbeside'⟩ := hfilled.link ninodes hd hroom
      (by omega) (by omega)
    refine ⟨u, ?_, hfilled', hbeside'.type.trans hbeside.type,
      fun e he => (hbeside'.dir e he).trans (hbeside.dir e he),
      fun e he => (hbeside'.blocks e he).trans (hbeside.blocks e he),
      fun e he => (hbeside'.nlink e he).trans (hbeside.nlink e he)⟩
    rw [links, List.range_succ, List.map_append]
    exact Machine.exec_concat hrun (by simp [machine, hstep])

/-- A disk with a root directory only. -/
def booted : State where
  type i := if i = 1 then T_DIR else 0
  nlink i := if i = 1 then 1 else 0
  dir i := if i = 1 then [⟨1, dot⟩, ⟨1, dotdot⟩] else []
  ref _ := 0
  blocks i := if i = 1 then 1 else 0
  free := 1000
  count i := if i = 1 then 1 else 0

theorem booted_initial : Initial 200 booted where
  root := by decide
  plain i hi := by
    have hi : i ≠ 1 := hi
    simp [booted, hi, T_DIR]
  named := by decide
  once := by decide
  count i := by
    by_cases hi : i = 1 <;> simp [booted, hi]
  bound i hi := by
    by_cases he : i = 1
    · omega
    · simp [booted, he] at hi

/-- A file "f" and two directories. -/
def setup : List Event :=
  [.create 1 [0x66] .file false, .create 1 [0x64] .dir false, .create 1 [0x65] .dir false]

/-- A file and two directories are made, and the file gets a second name. -/
theorem links_sound_setup : ∃ s,
    (machine 200).exec booted (setup ++ [.link 2 (some 3) [0x67], .unlink 1 [0x66]]) = some s ∧
      Sound 200 s := by
  obtain ⟨s, hs⟩ := Option.isSome_iff_exists.1 (by decide +kernel :
    ((machine 200).exec booted (setup ++ [.link 2 (some 3) [0x67], .unlink 1 [0x66]])).isSome)
  exact ⟨s, hs, links_sound booted_initial (by decide +kernel) hs⟩

/-- 32767 links to a file that has one fit on the disk: then its link count is
negative, and `unlink` stops the kernel. -/
theorem link_count_wraps : ∃ es s, (machine 200).exec booted es = some s ∧
    (s.nlink 2).toInt = -32768 ∧ s.count 2 = 32768 ∧
    s.step 200 (.unlink 1 [0x66]) = .panic "unlink: nlink < 1" := by
  obtain ⟨s, hs⟩ := Option.isSome_iff_exists.1
    (by decide +kernel : ((machine 200).exec booted setup).isSome)
  have hall : ((machine 200).exec booted setup).all fun s =>
      s.type 1 = T_DIR ∧ s.type 2 = T_FILE ∧ s.type 3 = T_DIR ∧ s.type 4 = T_DIR ∧
      s.dir 3 = [⟨3, dot⟩, ⟨1, dotdot⟩] ∧ s.dir 4 = [⟨4, dot⟩, ⟨1, dotdot⟩] ∧
      s.dirlookup 1 [0x66] = some (2, 2) ∧ s.nlink 2 = 1 ∧ s.nlink 3 = 1 ∧ s.nlink 4 = 1 ∧
      s.blocks 3 = 1 ∧ s.blocks 4 = 1 ∧ s.free = 998 ∧ s.count 2 = 1 := by
    decide +kernel
  rw [hs] at hall
  simp only [Option.all_some, decide_eq_true_eq] at hall
  obtain ⟨ht1, ht2, ht3, ht4, hd3, hd4, hlook, hn2, hn3, hn4, hb3, hb4, hfree, hc2⟩ := hall
  have h₀ : Filled 3 0 1 999 s :=
    ⟨ht2, ht3, hd3, hn3, hb3, by omega, hn2, hc2⟩
  obtain ⟨t, ht, h₁, hbeside⟩ := h₀.run 200 (by decide) (by decide) 17150
    (by decide) (by decide)
  have hfree' : t.free + t.blocks 4 = 731 := by
    have hroom := h₁.free
    rw [h₁.blocks, show blocksFor 17150 = 269 from rfl] at hroom
    rw [hbeside.blocks 4 (by decide), hb4]
    omega
  have h₂ : Filled 4 0 17151 731 t := by
    refine ⟨h₁.file, ?_, ?_, ?_, ?_, hfree', h₁.nlink, h₁.count⟩
    · rw [hbeside.type, ht4]
    · rw [hbeside.dir 4 (by decide), hd4]
      rfl
    · rw [hbeside.nlink 4 (by decide), hn4]
    · rw [hbeside.blocks 4 (by decide), hb4]
      rfl
  obtain ⟨u, hu, h₃, hbeside'⟩ := h₂.run 200 (by decide) (by decide) 15617
    (by decide) (by decide)
  have hneg : (u.nlink 2).toInt = -32768 := by
    rw [h₃.nlink]
    decide
  refine ⟨setup ++ links 3 17150 ++ links 4 15617, u, ?_, hneg, h₃.count, ?_⟩
  · rw [Machine.exec_append, Machine.exec_append, hs, Option.bind_some, ht, Option.bind_some, hu]
  · have hlook' : u.dirlookup 1 [0x66] = some (2, 2) := by
      rw [← hlook]
      unfold State.dirlookup
      rw [hbeside'.dir 1 (by decide), hbeside.dir 1 (by decide)]
    have htype : u.type 1 = T_DIR := by rw [hbeside'.type, hbeside.type, ht1]
    simp only [State.step, State.sys_unlink]
    rw [if_neg (not_not.2 htype), if_neg (by decide), hlook']
    simp only [State.unlinkFound]
    rw [if_neg (by rw [h₃.file]; decide), if_pos (by rw [hneg]; decide)]

end Xv6.LinkCounts
