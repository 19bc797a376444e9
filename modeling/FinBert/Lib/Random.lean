import FinBert.Lib.Program
import Mathlib.Algebra.Order.Field.Rat
import Mathlib.Algebra.Order.Ring.Cast
import Mathlib.Data.List.Perm.Basic
import Mathlib.Tactic.Ring

/-!
# Python programs that draw random numbers

A generator is the sequence of all numbers that it will ever produce; `random`,
`randint` and `shuffle` (`random.Random`) take the next one and bring it into their
range. A theorem about every generator is one about every outcome of every draw.

Results:
1. `ensures_randint`: a drawn integer is in its range.
2. `ensures_shuffle` and `exists_shuffle`: a shuffled list is a permutation, and every
   permutation can come out.
-/

namespace Random

open Program

/-- The exceptions of Python that the programs here can raise. `outOfFuel` is none of
them: it ends a `while` loop whose bound on the number of turns was too small. -/
inductive PyError
  | assertion
  | keyError
  | indexError
  | valueError
  | outOfFuel
deriving DecidableEq, Repr

/-- The numbers that a generator will produce. -/
abbrev Rng := Nat → Nat

/-- The generator after `n` draws. -/
def Rng.skip (rng : Rng) (n : Nat) : Rng := fun k => rng (k + n)

/-- A program that draws from a generator and can raise an exception. -/
abbrev Py := EStateM PyError Rng

/-- `assert`. -/
def assert (p : Prop) [Decidable p] : Py Unit := if p then pure () else throw .assertion

/-- `xs[i]` for an index that is not negative. -/
def getItem {α : Type} (xs : List α) (i : Nat) : Py α :=
  match xs[i]? with
  | some x => pure x
  | none => throw .indexError

/-- The next number of the generator. -/
def draw : Py Nat := fun rng => .ok (rng 0) (rng.skip 1)

/-- Whether a draw makes `random()`, a multiple of 2⁻⁵³ in [0, 1), smaller than `p`. -/
def isBelow (p : ℚ) (n : Nat) : Bool :=
  ((n % 9007199254740992 : Nat) : Int) * (p.den : Int) < p.num * 9007199254740992

/-- `random() < p`. -/
def randomBelow (p : ℚ) : Py Bool := isBelow p <$> draw

/-- The number that `randint(lo, hi)` makes of a draw. -/
def inRange (lo hi : Int) (n : Nat) : Int := lo + (n : Int) % (hi - lo + 1)

/-- `randint(lo, hi)`. -/
def randint (lo hi : Int) : Py Int := if lo ≤ hi then inRange lo hi <$> draw else throw .valueError

/-- The loop of `shuffle`, downwards from the index `i`. -/
def shuffleLoop {α : Type} : Nat → List α → Py (List α)
  | 0, xs => pure xs
  | i + 1, xs => do
    let n ← draw
    shuffleLoop i (xs.swap (i + 1) (n % (i + 2)))

/-- `shuffle(xs)`. -/
def shuffle {α : Type} (xs : List α) : Py (List α) := shuffleLoop (xs.length - 1) xs

theorem isBelow_iff (p : ℚ) (n : Nat) :
    isBelow p n ↔ ((n % 9007199254740992 : Nat) : ℚ) / 9007199254740992 < p := by
  have hden : (0 : ℚ) < p.den := by exact_mod_cast p.den_pos
  have hp : p = p.num / p.den := (Rat.num_div_den p).symm
  unfold isBelow
  rw [decide_eq_true_iff]
  conv_rhs => rw [hp, div_lt_div_iff₀ (by norm_num) hden]
  rw [← Int.cast_lt (R := ℚ), Int.cast_mul, Int.cast_mul, Int.cast_natCast, Int.cast_natCast,
    Int.cast_ofNat]

/-! ## Rules -/

variable {α : Type} {E : PyError → Prop} {rng : Rng}

theorem assert_eq {p : Prop} [Decidable p] (hp : p) : assert p = pure () := if_pos hp

/-- The rules of the statements that can fail ask for the exception when they do. -/
theorem ensures_assert {p : Prop} [Decidable p] {Q : Unit → Rng → Prop}
    (hE : ¬ p → E .assertion) (hQ : p → Q () rng) : Ensures (assert p) Q E rng := by
  unfold assert
  split
  · next hp => exact ensures_pure (hQ hp)
  · next hp => exact ensures_throw (hE hp)

theorem ensures_getItem {xs : List α} {i : Nat} {Q : α → Rng → Prop}
    (hE : ¬ i < xs.length → E .indexError) (hQ : ∀ x, xs[i]? = some x → Q x rng) :
    Ensures (getItem xs i) Q E rng := by
  unfold getItem
  split
  · next x hx => exact ensures_pure (hQ x hx)
  · next hnone => exact ensures_throw (hE (by simpa using hnone))

/-- Whatever the draw is. -/
theorem ensures_randomBelow {p : ℚ} {Q : Bool → Rng → Prop}
    (h : Q (isBelow p (rng 0)) (rng.skip 1)) : Ensures (randomBelow p) Q E rng :=
  ensures_of_eq_ok rfl h

theorem inRange_mem {lo hi : Int} (h : lo ≤ hi) (n : Nat) :
    lo ≤ inRange lo hi n ∧ inRange lo hi n ≤ hi := by
  unfold inRange
  have hnonneg := Int.emod_nonneg (n : Int) (b := hi - lo + 1) (by omega)
  have hlt := Int.emod_lt_of_pos (n : Int) (b := hi - lo + 1) (by omega)
  omega

theorem ensures_randint {lo hi : Int} {Q : Int → Rng → Prop} (hE : ¬ lo ≤ hi → E .valueError)
    (hQ : lo ≤ inRange lo hi (rng 0) → inRange lo hi (rng 0) ≤ hi →
      Q (inRange lo hi (rng 0)) (rng.skip 1)) : Ensures (randint lo hi) Q E rng := by
  unfold randint
  split
  · next h =>
    obtain ⟨hlo, hhi⟩ := inRange_mem h (rng 0)
    exact ensures_of_eq_ok rfl (hQ hlo hhi)
  · next h => exact ensures_throw (hE h)

theorem ensures_shuffleLoop (i : Nat) (xs : List α) :
    Ensures (shuffleLoop i xs) (fun ys _ => ys.Perm xs) E rng := by
  induction i generalizing xs rng with
  | zero => exact ensures_pure (List.Perm.refl xs)
  | succ i ih =>
    refine ensures_bind (ensures_of_eq_ok rfl ?_)
    exact (ih _).imp fun ys _ hys => hys.trans (List.swap_perm xs _ _)

/-- A shuffled list has the same elements, each as often as before. -/
theorem ensures_shuffle (xs : List α) : Ensures (shuffle xs) (fun ys _ => ys.Perm xs) E rng :=
  ensures_shuffleLoop _ xs

/-! ## Every permutation comes out of some draws -/

/-- The generator that produces `n` first. -/
def Rng.cons (n : Nat) (rng : Rng) : Rng
  | 0 => n
  | k + 1 => rng k

theorem draw_cons (n : Nat) (rng : Rng) : draw (rng.cons n) = .ok n rng := rfl

/-- The turn of the loop at `i` brings the wanted element into its place. -/
theorem drop_swap {xs ys : List α} {i j : Nat} (hi : i < xs.length) (hj : j < xs.length)
    (hji : j ≤ i) (hy : ys[i]? = xs[j]?) (hdrop : ys.drop (i + 1) = xs.drop (i + 1)) :
    ys.drop i = (xs.swap i j).drop i := by
  have hlength : i < (xs.swap i j).length := by rwa [List.length_swap]
  have hrest : (xs.swap i j).drop (i + 1) = xs.drop (i + 1) := by
    rw [List.swap_eq_of_lt hi hj, List.drop_set_of_lt (Nat.lt_succ_of_le hji),
      List.drop_set_of_lt (Nat.lt_succ_self i)]
  have hhead : (xs.swap i j)[i] = xs[j] := by
    rw [List.getElem_swap_left hlength, dif_pos hj]
  rw [List.getElem?_eq_getElem hj] at hy
  obtain ⟨hy', hget⟩ := List.getElem?_eq_some_iff.mp hy
  rw [List.drop_eq_getElem_cons hlength, List.drop_eq_getElem_cons hy', hrest, hhead, hdrop, hget]

theorem take_perm_of_drop_eq {xs ys : List α} {n : Nat} (hperm : ys.Perm xs)
    (hdrop : ys.drop n = xs.drop n) : (ys.take n).Perm (xs.take n) := by
  rw [← List.take_append_drop n ys, ← List.take_append_drop n xs, hdrop] at hperm
  exact (List.perm_append_right_iff _).mp hperm

theorem exists_shuffleLoop (i : Nat) {xs ys : List α} (hperm : ys.Perm xs)
    (hi : i < xs.length ∨ i = 0) (hdrop : ys.drop (i + 1) = xs.drop (i + 1)) (rest : Rng) :
    ∃ rng, shuffleLoop i xs rng = .ok ys rest := by
  induction i generalizing xs with
  | zero =>
    have heq : ys.take 1 = xs.take 1 := by
      cases xs with
      | nil => rw [List.Perm.eq_nil hperm]
      | cons x xs => exact List.perm_singleton.mp (take_perm_of_drop_eq hperm hdrop)
    refine ⟨rest, ?_⟩
    rw [← List.take_append_drop 1 ys, heq, hdrop, List.take_append_drop]
    rfl
  | succ i ih =>
    have hi : i + 1 < xs.length := hi.resolve_right (Nat.succ_ne_zero i)
    have hiy : i + 1 < ys.length := by rwa [hperm.length_eq]
    have hmem : ys[i + 1] ∈ ys.take (i + 2) :=
      List.mem_take_iff_getElem.mpr ⟨i + 1, lt_min (Nat.lt_succ_self _) hiy, rfl⟩
    have htake := take_perm_of_drop_eq hperm hdrop
    obtain ⟨j, hj, hget⟩ := List.mem_take_iff_getElem.mp (htake.mem_iff.mp hmem)
    obtain ⟨hj2, hjx⟩ := lt_min_iff.mp hj
    have hy : ys[i + 1]? = xs[j]? := by
      rw [List.getElem?_eq_getElem hiy, List.getElem?_eq_getElem hjx, hget]
    have hdrop' := drop_swap hi hjx (Nat.le_of_lt_succ hj2) hy hdrop
    have hperm' : ys.Perm (xs.swap (i + 1) j) := hperm.trans (List.swap_perm xs _ _).symm
    have hi' : i < (xs.swap (i + 1) j).length := by
      rw [List.length_swap]
      exact Nat.lt_of_succ_lt hi
    obtain ⟨rng, hrng⟩ := ih hperm' (.inl hi') hdrop'
    refine ⟨rng.cons j, bind_eq_ok.mpr ⟨j, rng, draw_cons j rng, ?_⟩⟩
    rwa [Nat.mod_eq_of_lt hj2]

/-- Some draws shuffle `xs` into `ys`, whatever the generator produces behind them. -/
theorem exists_shuffle {xs ys : List α} (hperm : ys.Perm xs) (rest : Rng) :
    ∃ rng, shuffle xs rng = .ok ys rest := by
  refine exists_shuffleLoop _ hperm ?_ ?_ rest
  · cases xs with
    | nil => exact .inr rfl
    | cons x xs => exact .inl (Nat.lt_succ_self _)
  · have hxs : xs.length ≤ xs.length - 1 + 1 := Nat.sub_le_iff_le_add.mp le_rfl
    rw [List.drop_eq_nil_of_le hxs, List.drop_eq_nil_of_le (hperm.length_eq.trans_le hxs)]

end Random
