import Mathlib.Algebra.Group.Basic

/-!
# Chains of products and quotients

A chain of products and quotients is read from the left. When it is built from the right, the two
operators have to be exchanged behind a quotient. A builder that exchanges them back at the next
quotient instead reads the same value if no operator but the last two is a quotient, and only then.
-/

namespace Safrn.Base

/-- An operation, its neutral element and its inverse operation. -/
structure IsQuotient {G : Type*} (one : G) (mul div : G → G → G) : Prop where
  mul_mul : ∀ x y z, mul x (mul y z) = mul (mul x y) z
  mul_div : ∀ x y z, mul x (div y z) = div (mul x y) z
  div_mul : ∀ x y z, div x (mul y z) = div (div x y) z
  div_div : ∀ x y z, div x (div y z) = mul (div x y) z
  one_mul : ∀ x, mul one x = x
  mul_one : ∀ x, mul x one = x
  div_one : ∀ x, div x one = x

theorem isQuotient_add (G : Type*) [AddCommGroup G] : IsQuotient (0 : G) (· + ·) (· - ·) where
  mul_mul x y z := (add_assoc x y z).symm
  mul_div x y z := (add_sub_assoc x y z).symm
  div_mul x y z := (sub_sub x y z).symm
  div_div x y z := by rw [sub_add]
  one_mul := zero_add
  mul_one := add_zero
  div_one := sub_zero

theorem isQuotient_mul (G : Type*) [DivisionCommMonoid G] : IsQuotient (1 : G) (· * ·) (· / ·) where
  mul_mul x y z := (mul_assoc x y z).symm
  mul_div x y z := (mul_div_assoc x y z).symm
  div_mul x y z := (div_div x y z).symm
  div_div x y z := by rw [div_div_eq_mul_div, div_mul_eq_mul_div]
  one_mul := one_mul
  mul_one := mul_one
  div_one := div_one

section Chains

variable {G : Type*} (mul div : G → G → G)

/-- The chain read from the left; `true` stands for a quotient. -/
def fromLeft (x : G) : List (Bool × G) → G
  | [] => x
  | (b, y) :: l => fromLeft (if b then div x y else mul x y) l

/-- The chain built from the right, with the operators exchanged behind every other quotient. -/
def fromRight (inverted : Bool) (x : G) : List (Bool × G) → G
  | [] => x
  | (b, y) :: l =>
    (if b = inverted then mul else div) x (fromRight (b ^^ inverted) y l)

variable {mul div} {one x y g : G} {inverted : Bool} {l : List (Bool × G)}

theorem fromLeft_mul (h : IsQuotient one mul div) (x y : G) (l : List (Bool × G)) :
    fromLeft mul div (mul x y) l = mul x (fromLeft mul div y l) := by
  induction l generalizing y with
  | nil => rfl
  | cons p l ih =>
    obtain ⟨b, z⟩ := p
    cases b with
    | true => exact (congrArg (fromLeft mul div · l) (h.mul_div x y z).symm).trans (ih (div y z))
    | false => exact (congrArg (fromLeft mul div · l) (h.mul_mul x y z).symm).trans (ih (mul y z))

theorem fromRight_eq_fromLeft (h : IsQuotient one mul div)
    (hl : ∀ p ∈ l.dropLast.dropLast, p.1 = false) :
    fromRight mul div false x l = fromLeft mul div x l := by
  induction l generalizing x with
  | nil => rfl
  | cons p l ih =>
    obtain ⟨b, y⟩ := p
    cases l with
    | nil => cases b <;> rfl
    | cons q l =>
      obtain ⟨c, z⟩ := q
      cases l with
      | nil =>
        cases b with
        | true =>
          cases c with
          | true => exact h.div_mul x y z
          | false => exact h.div_div x y z
        | false =>
          cases c with
          | true => exact h.mul_div x y z
          | false => exact h.mul_mul x y z
      | cons r l =>
        obtain ⟨rfl, hrest⟩ := List.forall_mem_cons.mp hl
        exact (congrArg (mul x) (ih hrest)).trans (fromLeft_mul h x y _).symm

theorem fromLeft_one (h : IsQuotient one mul div) (hl : ∀ p ∈ l, p.2 = one) :
    fromLeft mul div x l = x := by
  induction l generalizing x with
  | nil => rfl
  | cons p l ih =>
    obtain ⟨b, y⟩ := p
    obtain ⟨rfl, hl⟩ := List.forall_mem_cons.mp hl
    cases b with
    | true => exact (ih hl).trans (h.div_one x)
    | false => exact (ih hl).trans (h.mul_one x)

theorem fromRight_one (h : IsQuotient one mul div) (hl : ∀ p ∈ l, p.2 = one) :
    fromRight mul div inverted x l = x := by
  induction l generalizing x inverted with
  | nil => rfl
  | cons p l ih =>
    obtain ⟨b, y⟩ := p
    obtain ⟨rfl, hl⟩ := List.forall_mem_cons.mp hl
    rw [fromRight, ih hl]
    split
    case isTrue => exact h.mul_one x
    case isFalse => exact h.div_one x

/-- A quotient with two operators behind it goes wrong in the second one of these. -/
theorem fromRight_ne_fromLeft (h : IsQuotient one mul div) (hg : div one g ≠ g) (c d : Bool)
    (hl : ∀ p ∈ l, p.2 = one) :
    fromRight mul div false one ((true, one) :: (c, one) :: (d, g) :: l) ≠
      fromLeft mul div one ((true, one) :: (c, one) :: (d, g) :: l) := by
  have hinverse : div one (div one g) = g := by rw [h.div_div, h.div_one, h.one_mul]
  cases c <;> cases d <;>
    simp [fromRight, fromLeft, fromRight_one h hl, fromLeft_one h hl, h.div_one, h.one_mul,
      hinverse, hg, Ne.symm hg]

end Chains

/-- If a quotient stands in front of the last two operators, there are values for which the two
readings differ. -/
theorem exists_fromRight_ne {G ι : Type*} {mul div : G → G → G} {one g : G}
    (h : IsQuotient one mul div) (hg : div one g ≠ g) {i : ι} {l : List (Bool × ι)}
    (hnodup : (i :: l.map Prod.snd).Nodup) (hl : ¬∀ p ∈ l.dropLast.dropLast, p.1 = false) :
    ∃ ρ : ι → G, (∀ j, ρ j = one ∨ ρ j = g) ∧
      fromRight mul div false (ρ i) (l.map fun p ↦ (p.1, ρ p.2)) ≠
        fromLeft mul div (ρ i) (l.map fun p ↦ (p.1, ρ p.2)) := by
  classical
  induction l generalizing i with
  | nil => exact absurd (fun p hp ↦ absurd hp List.not_mem_nil) hl
  | cons p l ih =>
    obtain ⟨b, j⟩ := p
    obtain _ | ⟨⟨c, k⟩, _ | ⟨⟨d, m⟩, l⟩⟩ := l
    · exact absurd (fun p hp ↦ absurd hp List.not_mem_nil) hl
    · exact absurd (fun p hp ↦ absurd hp List.not_mem_nil) hl
    · cases b with
      | true =>
        -- all values but the third one are neutral
        refine ⟨fun t ↦ if t = m then g else one, fun t ↦ ?_, ?_⟩
        · by_cases ht : t = m
          · exact .inr (if_pos ht)
          · exact .inl (if_neg ht)
        · simp only [List.map_cons, List.nodup_cons, List.mem_cons, not_or] at hnodup
          obtain ⟨⟨-, -, him, -⟩, ⟨-, hjm, -⟩, ⟨hkm, -⟩, hm, -⟩ := hnodup
          have hrest : ∀ p ∈ l.map fun p ↦ (p.1, if p.2 = m then g else one), p.2 = one := by
            intro p hp
            obtain ⟨q, hq, rfl⟩ := List.mem_map.mp hp
            refine if_neg fun heq ↦ hm ?_
            rw [← heq]
            exact List.mem_map_of_mem hq
          simp only [List.map_cons, if_neg him, if_neg hjm, if_neg hkm, if_true]
          exact fromRight_ne_fromLeft h hg c d hrest
      | false =>
        have htail : ¬∀ p ∈ ((c, k) :: (d, m) :: l).dropLast.dropLast, p.1 = false := by
          intro hall
          exact hl (List.forall_mem_cons.mpr ⟨rfl, hall⟩)
        obtain ⟨hi, hnodup'⟩ := List.nodup_cons.mp hnodup
        obtain ⟨ρ, hρ, hne⟩ := ih hnodup' htail
        refine ⟨Function.update ρ i one, fun t ↦ ?_, ?_⟩
        · by_cases ht : t = i
          · rw [ht, Function.update_self]
            exact .inl rfl
          · rw [Function.update_of_ne ht]
            exact hρ t
        · have hsame : ∀ t ∈ ((false, j) :: (c, k) :: (d, m) :: l).map Prod.snd,
              Function.update ρ i one t = ρ t := by
            intro t ht
            refine Function.update_of_ne ?_ _ _
            rintro rfl
            exact hi ht
          have hmap : (((c, k) :: (d, m) :: l).map fun p ↦ (p.1, Function.update ρ i one p.2)) =
              ((c, k) :: (d, m) :: l).map fun p ↦ (p.1, ρ p.2) := by
            refine List.map_congr_left fun p hp ↦ ?_
            rw [hsame p.2 (List.mem_cons_of_mem _ (List.mem_map_of_mem hp))]
          rw [List.map_cons, hmap, Function.update_self, hsame j List.mem_cons_self]
          refine fun heq ↦ hne ?_
          have hleft := fromLeft_mul h one (ρ j) (((c, k) :: (d, m) :: l).map fun p ↦ (p.1, ρ p.2))
          rw [h.one_mul] at hleft
          have hright : fromRight mul div false one ((false, ρ j) ::
              ((c, k) :: (d, m) :: l).map fun p ↦ (p.1, ρ p.2)) =
              fromRight mul div false (ρ j) (((c, k) :: (d, m) :: l).map fun p ↦ (p.1, ρ p.2)) :=
            h.one_mul _
          have hread : fromLeft mul div one ((false, ρ j) ::
              ((c, k) :: (d, m) :: l).map fun p ↦ (p.1, ρ p.2)) =
              fromLeft mul div (ρ j) (((c, k) :: (d, m) :: l).map fun p ↦ (p.1, ρ p.2)) :=
            congrArg (fromLeft mul div · _) (h.one_mul _)
          rw [← hright, ← hread]
          exact heq

end Safrn.Base
