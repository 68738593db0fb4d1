/-
grep.c: the regular-expression matcher.

A string is the list of its bytes before the NUL. `Item.lang` is what a part of
a pattern means; the matcher is compared with the product of these languages.
-/
import Mathlib.Computability.Language

namespace Xv6.Grep

open scoped Computability

/-- The bytes of the operators. -/
def caret : UInt8 := 0x5e

def dot : UInt8 := 0x2e

def star : UInt8 := 0x2a

def dollar : UInt8 := 0x24

mutual

/-- Search for `re` at the beginning of `text`. -/
def matchhere (re text : List UInt8) : Bool :=
  match re with
  | [] => true
  | c :: re =>
    if re.head? = some star then matchstar c re.tail text
    else if c = dollar ∧ re = [] then text = []
    else
      match text with
      | [] => false
      | a :: text => if c = dot ∨ c = a then matchhere re text else false
termination_by (re.length, 0)
decreasing_by
  · simp only [List.length_tail, List.length_cons]
    exact Prod.Lex.left _ _ (by omega)
  · exact Prod.Lex.left _ _ (by simp)

/-- Search for `c*re` at the beginning of `text`. -/
def matchstar (c : UInt8) (re text : List UInt8) : Bool :=
  if matchhere re text then true
  else
    match text with
    | [] => false
    | a :: text => if a = c ∨ c = dot then matchstar c re text else false
termination_by (re.length, text.length + 1)
decreasing_by
  · exact Prod.Lex.right _ (by omega)
  · exact Prod.Lex.right _ (by simp)

end

/-- The loop of `match`, which looks at the empty string at the end, too. -/
def matchLoop (re : List UInt8) : (text : List UInt8) → Bool
  | [] => matchhere re []
  | a :: text => if matchhere re (a :: text) then true else matchLoop re text

/-- `match` -/
def matchText (re text : List UInt8) : Bool :=
  match re with
  | [] => matchLoop re text
  | c :: re' => if c = caret then matchhere re' text else matchLoop re text

/-! ## What a pattern means -/

/-- `c` in a pattern stands for `a`. -/
def Stands (c a : UInt8) : Prop := c = dot ∨ c = a

instance (c a : UInt8) : Decidable (Stands c a) := by
  unfold Stands
  infer_instance

/-- A part of a pattern. -/
inductive Item where
  | one (c : UInt8)
  | star (c : UInt8)

/-- The one-byte words that `c` stands for. -/
def single (c : UInt8) : Language UInt8 := {w | ∃ a, Stands c a ∧ w = [a]}

def Item.lang : Item → Language UInt8
  | .one c => single c
  | .star c => (single c)∗

/-- The parts of a pattern after its start anchor, and whether it has an end
anchor. -/
def parts : (re : List UInt8) → List Item × Bool
  | [] => ([], false)
  | [c] => if c = dollar then ([], true) else ([.one c], false)
  | c :: d :: re =>
    if d = star then (.star c :: (parts re).1, (parts re).2)
    else (.one c :: (parts (d :: re)).1, (parts (d :: re)).2)

/-- A pattern, read from left to right. -/
structure Pattern where
  atStart : Bool
  items : List Item
  atEnd : Bool

/-- The language of a pattern, without its anchors. -/
def Pattern.lang (p : Pattern) : Language UInt8 := (p.items.map Item.lang).prod

def patternOf (re : List UInt8) : Pattern :=
  match re with
  | [] => ⟨false, [], false⟩
  | c :: re' =>
    if c = caret then ⟨true, (parts re').1, (parts re').2⟩
    else ⟨false, (parts re).1, (parts re).2⟩

variable {c : UInt8} {re text w : List UInt8}

/-! ## matchhere -/

theorem mem_single {a : UInt8} : [a] ∈ single c ↔ Stands c a := by
  constructor
  · rintro ⟨b, hb, he⟩
    cases he
    exact hb
  · intro h
    exact ⟨a, h, rfl⟩

/-- A repetition has any bytes that its character stands for. -/
theorem mem_star : w ∈ (Item.star c).lang ↔ ∀ a ∈ w, Stands c a := by
  rw [Item.lang, Language.mem_kstar]
  constructor
  · rintro ⟨ws, rfl, hws⟩ a ha
    obtain ⟨u, hu, hau⟩ := List.mem_flatten.1 ha
    obtain ⟨b, hb, rfl⟩ := hws u hu
    rw [List.mem_singleton.1 hau]
    exact hb
  · intro h
    refine ⟨w.map fun a => [a], ?_, fun u hu => ?_⟩
    · induction w with
      | nil => rfl
      | cons a w ih => simpa using ih fun b hb => h b (List.mem_cons_of_mem a hb)
    · obtain ⟨a, ha, rfl⟩ := List.mem_map.1 hu
      exact mem_single.2 (h a ha)

/-- `matchstar` skips bytes that `c` stands for, and goes on with `re`. -/
theorem matchstar_iff : matchstar c re text = true ↔
    ∃ u v, text = u ++ v ∧ (∀ a ∈ u, Stands c a) ∧ matchhere re v = true := by
  induction text with
  | nil =>
    rw [matchstar]
    constructor
    · intro h
      refine ⟨[], [], rfl, nofun, ?_⟩
      simpa using h
    · rintro ⟨u, v, huv, -, hv⟩
      obtain ⟨rfl, rfl⟩ := List.append_eq_nil_iff.1 huv.symm
      rw [if_pos hv]
  | cons a text ih =>
    rw [matchstar]
    split
    next hhere => exact iff_of_true rfl ⟨[], a :: text, rfl, nofun, hhere⟩
    next hhere =>
      split
      next ha =>
        rw [ih]
        constructor
        · rintro ⟨u, v, rfl, hu, hv⟩
          refine ⟨a :: u, v, rfl, fun b hb => ?_, hv⟩
          rcases List.mem_cons.1 hb with rfl | hb
          · exact ha.symm.imp_right Eq.symm
          · exact hu b hb
        · rintro ⟨u, v, huv, hu, hv⟩
          cases u with
          | nil =>
            rw [List.nil_append] at huv
            exact absurd (huv ▸ hv) hhere
          | cons b u =>
            obtain ⟨rfl, rfl⟩ := List.cons.inj huv
            exact ⟨u, v, rfl, fun d hd => hu d (List.mem_cons_of_mem _ hd), hv⟩
      next ha =>
        refine iff_of_false (by simp) ?_
        rintro ⟨u, v, huv, hu, hv⟩
        cases u with
        | nil =>
          rw [List.nil_append] at huv
          exact hhere (huv ▸ hv)
        | cons b u =>
          obtain ⟨rfl, rfl⟩ := List.cons.inj huv
          exact ha ((hu a List.mem_cons_self).symm.imp_left Eq.symm)

/-- A text starts with a word of the parts, and ends there if there is an end
anchor. -/
def Here (p : List Item × Bool) (text : List UInt8) : Prop :=
  ∃ w post, text = w ++ post ∧ w ∈ (p.1.map Item.lang).prod ∧ (p.2 = true → post = [])

theorem here_nil (e : Bool) : Here ([], e) text ↔ (e = true → text = []) := by
  unfold Here
  rw [List.map_nil, List.prod_nil]
  constructor
  · rintro ⟨w, post, rfl, hw, he⟩ h
    rw [Language.mem_one] at hw
    rw [hw, he h]
    rfl
  · intro h
    exact ⟨[], text, rfl, Language.mem_one _ |>.2 rfl, h⟩

theorem here_cons (i : Item) (is : List Item) (e : Bool) :
    Here (i :: is, e) text ↔ ∃ u v, text = u ++ v ∧ u ∈ i.lang ∧ Here (is, e) v := by
  unfold Here
  rw [List.map_cons, List.prod_cons]
  constructor
  · rintro ⟨w, post, rfl, hw, he⟩
    obtain ⟨u, hu, v, hv, rfl⟩ := Language.mem_mul.1 hw
    exact ⟨u, v ++ post, List.append_assoc .., hu, v, post, rfl, hv, he⟩
  · rintro ⟨u, v, rfl, hu, w, post, rfl, hw, he⟩
    exact ⟨u ++ w, post, (List.append_assoc ..).symm, Language.mem_mul.2 ⟨u, hu, w, hw, rfl⟩, he⟩

theorem here_one (is : List Item) (e : Bool) : Here (.one c :: is, e) text ↔
    ∃ a v, text = a :: v ∧ Stands c a ∧ Here (is, e) v := by
  rw [here_cons]
  constructor
  · rintro ⟨u, v, rfl, ⟨a, ha, rfl⟩, hv⟩
    exact ⟨a, v, rfl, ha, hv⟩
  · rintro ⟨a, v, rfl, ha, hv⟩
    exact ⟨[a], v, rfl, mem_single.2 ha, hv⟩

theorem matchhere_nil (text : List UInt8) : matchhere [] text = true := by
  rw [matchhere.eq_def]

theorem matchhere_star (c : UInt8) (re text : List UInt8) :
    matchhere (c :: star :: re) text = matchstar c re text := by
  rw [matchhere.eq_def]
  exact if_pos rfl

theorem matchhere_end (text : List UInt8) : matchhere [dollar] text = decide (text = []) := by
  rw [matchhere.eq_def]
  simp

/-- One character of the pattern that is no operator. -/
theorem matchhere_one (hstar : re.head? ≠ some star) (hend : ¬ (c = dollar ∧ re = [])) :
    matchhere (c :: re) text = true ↔
      ∃ a v, text = a :: v ∧ Stands c a ∧ matchhere re v = true := by
  rw [matchhere.eq_def]
  simp only [if_neg hstar, if_neg hend]
  cases text with
  | nil => simp
  | cons b text =>
    simp only
    constructor
    · intro h
      split at h
      next hb => exact ⟨b, text, rfl, hb, h⟩
      next => cases h
    · rintro ⟨a, v, hav, ha, hv⟩
      obtain ⟨rfl, rfl⟩ := List.cons.inj hav
      exact (if_pos ha).trans hv

theorem matchhere_iff : matchhere re text = true ↔ Here (parts re) text := by
  induction re using parts.induct generalizing text with
  | case1 =>
    rw [parts, here_nil, matchhere_nil]
    simp
  | case2 =>
    rw [parts, if_pos rfl, here_nil, matchhere_end]
    simp
  | case3 c hc =>
    rw [parts, if_neg hc, here_one, matchhere_one (by simp) fun h => hc h.1]
    refine exists_congr fun a => exists_congr fun v => and_congr_right' (and_congr_right' ?_)
    rw [matchhere_nil, here_nil]
    simp
  | case4 c re ih =>
    rw [parts, if_pos rfl, here_cons, matchhere_star, matchstar_iff]
    refine exists_congr fun u => exists_congr fun v => and_congr_right' ?_
    rw [mem_star, ih]
  | case5 c d re hd ih =>
    have hstar : (d :: re).head? ≠ some star := fun h => hd (Option.some.inj h)
    rw [parts, if_neg hd, here_one, matchhere_one hstar (by simp)]
    refine exists_congr fun a => exists_congr fun v => and_congr_right' (and_congr_right' ?_)
    exact ih

/-! ## match -/

theorem matchLoop_iff : matchLoop re text = true ↔
    ∃ pre v, text = pre ++ v ∧ matchhere re v = true := by
  induction text with
  | nil =>
    rw [matchLoop]
    constructor
    · intro h
      exact ⟨[], [], rfl, h⟩
    · rintro ⟨pre, v, hv, h⟩
      obtain ⟨rfl, rfl⟩ := List.append_eq_nil_iff.1 hv.symm
      exact h
  | cons a text ih =>
    rw [matchLoop]
    split
    next h => exact iff_of_true rfl ⟨[], a :: text, rfl, h⟩
    next hno =>
      rw [ih]
      constructor
      · rintro ⟨pre, v, rfl, h⟩
        exact ⟨a :: pre, v, rfl, h⟩
      · rintro ⟨pre, v, hv, h⟩
        cases pre with
        | nil =>
          rw [List.nil_append] at hv
          exact absurd (hv ▸ h) hno
        | cons b pre =>
          obtain ⟨rfl, rfl⟩ := List.cons.inj hv
          exact ⟨pre, v, rfl, h⟩

/-- `match` returns 1 exactly when some part of the text is in the language of
the pattern, at its anchors. -/
theorem match_correct (re text : List UInt8) : matchText re text = true ↔
    ∃ pre w post, text = pre ++ w ++ post ∧ w ∈ (patternOf re).lang ∧
      ((patternOf re).atStart = true → pre = []) ∧ ((patternOf re).atEnd = true → post = []) := by
  have hloop : matchLoop re text = true ↔ ∃ pre w post, text = pre ++ w ++ post ∧
      w ∈ ((parts re).1.map Item.lang).prod ∧ (false = true → pre = []) ∧
        ((parts re).2 = true → post = []) := by
    rw [matchLoop_iff]
    constructor
    · rintro ⟨pre, v, rfl, hv⟩
      obtain ⟨w, post, rfl, hw, he⟩ := matchhere_iff.1 hv
      exact ⟨pre, w, post, (List.append_assoc ..).symm, hw, nofun, he⟩
    · rintro ⟨pre, w, post, rfl, hw, -, he⟩
      exact ⟨pre, w ++ post, List.append_assoc .., matchhere_iff.2 ⟨w, post, rfl, hw, he⟩⟩
  cases re with
  | nil => exact hloop
  | cons c re =>
    unfold matchText patternOf
    simp only
    split
    next =>
      rw [matchhere_iff]
      constructor
      · rintro ⟨w, post, rfl, hw, he⟩
        exact ⟨[], w, post, rfl, hw, fun _ => rfl, he⟩
      · rintro ⟨pre, w, post, rfl, hw, hs, he⟩
        rw [hs rfl]
        exact ⟨w, post, rfl, hw, he⟩
    next => exact hloop

end Xv6.Grep
