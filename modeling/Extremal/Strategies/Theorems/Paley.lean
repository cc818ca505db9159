import Mathlib.NumberTheory.LucasPrimality
import Mathlib.Tactic.NormNum.Prime
import Mathlib.Tactic.ReduceModChar
import Extremal.Lib.CliqueCount
import Extremal.Lib.Paley
import Extremal.Lib.TrialDivision
import Extremal.Graph.Theorems.Adjacency
import Extremal.Strategies.Init

open TrialDivision

section Prime

variable {n i : Nat}

-- The largest divisor whose square is a 32-bit number is 65531.
theorem le_of_square (hi : i % 6 = 5) (h : i * i < UInt32.size) : i ≤ 65531 := by
  by_contra hn
  have : 65537 * 65537 ≤ i * i := Nat.mul_le_mul (by omega) (by omega)
  have : UInt32.size < 65537 * 65537 := by decide
  omega

theorem square_lt (h : i ≤ 65531) : i * i < UInt32.size :=
  (Nat.mul_le_mul h h).trans_lt (by decide)

theorem isPrimeFrom?_eq (hn : 2 ≤ n) (hlt : n < 65531 * 65531) (hi : i % 6 = 5) (hle : i ≤ 65531)
    (hs : Survives n i) : isPrimeFrom? n i = some (decide n.Prime) := by
  fun_induction isPrimeFrom? n i
  case case1 i _ hin hd =>
    have hsq : 5 * i ≤ i * i := Nat.mul_le_mul_right i (by omega)
    have hp : ¬n.Prime := by
      rcases hd with hd | hd
      · exact not_prime (by omega) (by omega) hd
      · exact not_prime (by omega) (by omega) hd
    simp [hp]
  case case2 i _ hin hd ih =>
    rw [not_or] at hd
    have : i < 65531 := Nat.mul_self_lt_mul_self_iff.mp (by omega)
    exact ih (by omega) (by omega) <| hs.wheel hi hd.1 hd.2
  case case3 i _ hin => simp [hs.prime hn (by omega)]
  case case4 i hsq   => exact absurd (square_lt hle) hsq

theorem isPrimeFrom?_eq_true (hn : 2 ≤ n) (hi : i % 6 = 5) (hs : Survives n i) (h : isPrimeFrom? n i = some true) :
    n.Prime ∧ n < 65531 * 65531 := by
  fun_induction isPrimeFrom? n i
  case case1 => cases h
  case case2 i _ _ hd ih =>
    rw [not_or] at hd
    exact ih (by omega) (hs.wheel hi hd.1 hd.2) h
  case case3 i hsq hin =>
    have hle := le_of_square hi hsq
    exact ⟨hs.prime hn (by omega), (Nat.lt_of_not_le hin).trans_le <| Nat.mul_le_mul hle hle⟩
  case case4 => cases h

theorem isPrime?_eq (hlt : n < 65531 * 65531) : isPrime? n = some (decide n.Prime) := by
  rw [isPrime?]
  split
  case isTrue h =>
    have hp : ¬n.Prime := fun hp => absurd hp.two_le (by omega)
    simp [hp]
  split
  case isTrue h => rcases (by omega : n = 2 ∨ n = 3) with rfl | rfl <;> decide
  split
  case isTrue h =>
    have hp : ¬n.Prime := by
      rcases h with h | h
      · exact not_prime le_rfl (by omega) h
      · exact not_prime (by decide) (by omega) h
    simp [hp]
  case isFalse h =>
    rw [not_or] at h
    exact isPrimeFrom?_eq (by omega) hlt rfl (by decide) (survives_five h.1 h.2)

theorem isPrime?_eq_true (h : isPrime? n = some true) : n.Prime ∧ n < 65531 * 65531 := by
  by_cases hlt : n < 65531 * 65531
  case pos =>
    rw [isPrime?_eq hlt, Option.some.injEq, decide_eq_true_eq] at h
    exact ⟨h, hlt⟩
  case neg =>
    rw [isPrime?, if_neg (by omega), if_neg (by omega)] at h
    split at h
    case isTrue => cases h
    case isFalse hd =>
      rw [not_or] at hd
      exact isPrimeFrom?_eq_true (by omega) rfl (survives_five hd.1 hd.2) h

end Prime

section Modulus

variable {p q r : Nat}

theorem paleyPrime?_some (h : paleyPrime? p = some r) :
    IsLeast {q | p ≤ q ∧ q % 4 = 1 ∧ q.Prime} r ∧ r < 65531 * 65531 := by
  -- A candidate that the search passes over is not in the set.
  have next {p} (hr : IsLeast {q | p + 1 ≤ q ∧ q % 4 = 1 ∧ q.Prime} r) (hp : ¬(p % 4 = 1 ∧ p.Prime)) :
      IsLeast {q | p ≤ q ∧ q % 4 = 1 ∧ q.Prime} r := by
    refine ⟨⟨(Nat.le_succ p).trans hr.1.1, hr.1.2⟩, fun q hq => hr.2 ⟨?_, hq.2⟩⟩
    exact Nat.lt_of_le_of_ne hq.1 fun he => hp (he ▸ hq.2)
  fun_induction paleyPrime? p
  case case1 => cases h
  case case2 p _ hm ht =>
    cases h
    have ⟨hp, hlt⟩ := isPrime?_eq_true ht
    exact ⟨⟨⟨le_rfl, hm, hp⟩, fun q hq => hq.1⟩, hlt⟩
  case case3 p _ _ hf ih =>
    have ⟨hr, hlt⟩ := ih h
    refine ⟨next hr fun ⟨_, hp⟩ => ?_, hlt⟩
    rw [isPrime?_eq ((Nat.lt_of_succ_le hr.1.1).trans hlt), Option.some.injEq, decide_eq_false_iff_not] at hf
    exact hf hp
  case case4 p _ hm ih =>
    have ⟨hr, hlt⟩ := ih h
    exact ⟨next hr fun ⟨hm', _⟩ => hm hm', hlt⟩
  case case5 => cases h

theorem exists_paleyPrime? (hq : q.Prime) (hm : q % 4 = 1) (hlt : q < 65531 * 65531) (hp : p ≤ q) :
    ∃ r, paleyPrime? p = some r := by
  have step {p} (hp : p ≤ q) : isPrime? p = some (decide p.Prime) := isPrime?_eq (hp.trans_lt hlt)
  fun_induction paleyPrime? p
  case case1 p _ _ hn =>
    rw [step hp] at hn
    cases hn
  case case2 p _ _ _ => exact ⟨p, rfl⟩
  case case3 p _ _ hf ih =>
    rw [step hp, Option.some.injEq, decide_eq_false_iff_not] at hf
    exact ih <| Nat.lt_of_le_of_ne hp fun he => hf (he ▸ hq)
  case case4 p _ hm' ih =>
    exact ih <| Nat.lt_of_le_of_ne hp fun he => hm' (he ▸ hm)
  case case5 p hn =>
    have : 65531 * 65531 < UInt32.size := by decide
    omega

-- The largest modulus that a 32-bit trial division can show to be a prime: by the test of Lucas it is one, and
-- the later candidates below the square of the last divisor have small factors.
theorem prime_4294311893 : Nat.Prime 4294311893 := by
  refine lucas_primality 4294311893 2 (by reduce_mod_char) fun q hq hd => ?_
  have hf : 4294311893 - 1 = 2 * (2 * (13 * (107 * (223 * 3461)))) := by norm_num
  have dvd {a} (ha : a.Prime) : q ∣ a ↔ q = a := Nat.prime_dvd_prime_iff_eq hq ha
  rw [hf, hq.dvd_mul, hq.dvd_mul, hq.dvd_mul, hq.dvd_mul, hq.dvd_mul, dvd (by norm_num), dvd (by norm_num),
    dvd (by norm_num), dvd (by norm_num), dvd (by norm_num)] at hd
  rcases hd with rfl | rfl | rfl | rfl | rfl | rfl <;>
  · norm_num only
    reduce_mod_char
    decide

theorem not_prime_above (h : 4294311893 < q) (hlt : q < 65531 * 65531) (hm : q % 4 = 1) : ¬q.Prime := by
  obtain ⟨k, hk, rfl⟩ : ∃ k < 16, q = 4294311897 + 4 * k := ⟨(q - 4294311897) / 4, by omega, by omega⟩
  have factors : ∀ k < 16, ∃ d ∈ [3, 5, 7, 11, 79, 97, 109, 193, 21347, 63337],
      2 ≤ d ∧ d < 4294311897 ∧ (4294311897 + 4 * k) % d = 0 := by decide
  have ⟨d, _, hd, hn, h₀⟩ := factors k hk
  exact not_prime hd (by omega) h₀

theorem exists_paleyPrime?_iff : (∃ r, paleyPrime? p = some r) ↔ p ≤ 4294311893 := by
  constructor
  case mp =>
    intro ⟨r, h⟩
    have ⟨⟨⟨hp, hm, hr⟩, _⟩, hlt⟩ := paleyPrime?_some h
    exact hp.trans <| Nat.le_of_not_lt fun hn => not_prime_above hn hlt hm hr
  case mpr => exact exists_paleyPrime? prime_4294311893 (by decide) (by decide)

end Modulus

section Residues

open Paley

variable {p : Nat} [Fact p.Prime]

theorem exists_square_iff {d : Nat} (hd : d < p) :
    (∃ x ∈ List.range' 1 (p - 1), x * x % p = d) ↔ Residue (d : ZMod p) := by
  constructor
  case mp =>
    rintro ⟨x, hx, rfl⟩
    have hx := List.mem_range'_1.mp hx
    have hx₀ : (x : ZMod p) ≠ 0 := by
      rw [ne_eq, ZMod.natCast_eq_zero_iff]
      exact Nat.not_dvd_of_pos_of_lt (by omega) (by omega)
    rw [ZMod.natCast_mod, Nat.cast_mul]
    exact ⟨mul_ne_zero hx₀ hx₀, x, rfl⟩
  case mpr =>
    intro ⟨hd₀, y, hy⟩
    have hy₀ : y.val ≠ 0 := by
      rw [ne_eq, ZMod.val_eq_zero]
      rintro rfl
      exact hd₀ (by simpa using hy)
    have := y.val_lt
    refine ⟨y.val, List.mem_range'_1.mpr ⟨by omega, by omega⟩, ?_⟩
    have hm : y.val * y.val % p = d % p := by
      rw [← ZMod.natCast_eq_natCast_iff', Nat.cast_mul, ZMod.natCast_zmod_val, hy]
    rw [hm, Nat.mod_eq_of_lt hd]

-- The table marks the nonzero squares.
theorem getD_quadraticResidues {d : Nat} (hd : d < p) : (quadraticResidues p).getD d false ↔ Residue (d : ZMod p) := by
  have h₀ : ¬(List.replicate p false).getD d false := by simp [List.getD_eq_getElem?_getD, hd]
  refine Iff.trans ?_ <| or_iff_right h₀ |>.trans <| exists_square_iff hd
  refine (Loop.foldl_or (·.length = p) (fun qr : List Bool => qr.getD d false) (fun qr x _ hl => ?_) (by simp)).2
  refine ⟨by simpa using hl, ?_⟩
  simp only [List.getD_eq_getElem?_getD, List.getElem?_set, hl]
  by_cases h : x * x % p = d <;> simp [h, hd]

-- Whether the table joins the vertices `i` and `j`.
def joins (p i j : Nat) : Bool :=
  (quadraticResidues p).getD ((i - j : Int) % p).toNat false

theorem joins_iff (p : Nat) [Fact p.Prime] (i j : Nat) : joins p i j ↔ Residue (i - j : ZMod p) := by
  have hp : (0 : Int) < p := by exact_mod_cast (Fact.out : p.Prime).pos
  have h₀ := Int.emod_nonneg (i - j : Int) hp.ne'
  have hlt := Int.emod_lt_of_pos (i - j : Int) hp
  have hc : ((((i - j : Int) % p).toNat : Nat) : ZMod p) = (i - j : ZMod p) := by
    rw [← Int.cast_natCast, Int.toNat_of_nonneg h₀, ZMod.intCast_mod]
    push_cast
    rfl
  rw [joins, getD_quadraticResidues (by omega), hc]

end Residues

section Matrix

open AdjacencyMatrix Paley Finset

theorem paleyGraph?_some {n : Nat} {g : AdjacencyMatrix} :
    paleyGraph? n = some g ↔ ∃ p, paleyPrime? (max n 5) = some p ∧ ofAdj n (joins p) = g := by
  rw [paleyGraph?, Option.bind_eq_bind, Option.bind_eq_some_iff]
  simp only [← Option.some.injEq (ofAdj n _) g]
  rfl

variable {p : Nat} [Fact p.Prime]

-- The vertices as residues.
def toZMod {m : AdjacencyMatrix} (hn : m.n = p) : Fin m.n ≃ ZMod p where
  toFun i     := (i.val : ZMod p)
  invFun x    := ⟨x.val, hn ▸ x.val_lt⟩
  left_inv i  := Fin.ext <| ZMod.val_cast_of_lt (hn ▸ i.isLt)
  right_inv x := ZMod.natCast_zmod_val x

variable (hp : p % 4 = 1)
include hp

theorem edge_joins {n i j : Nat} (hi : i < n) (hj : j < n) : (ofAdj n (joins p)).edge i j ↔ Residue (i - j : ZMod p) := by
  have symm (i j) : joins p i j = joins p j i := by
    rw [Bool.eq_iff_iff, joins_iff, joins_iff, residue_sub_comm hp]
  by_cases h : i = j
  case pos => simp [h, Residue]
  case neg => rw [edge_ofAdj symm hi hj h, joins_iff]

variable {m : AdjacencyMatrix} (hn : m.n = p)
  (he : ∀ i j, i < m.n → j < m.n → (m.edge i j ↔ Residue (i - j : ZMod p)))

include hn he

theorem nonempty_iso_graph : Nonempty (m.graph ≃g Paley.graph hp) :=
  ⟨⟨toZMod hn, fun {i j} => (he i j i.isLt j.isLt).symm⟩⟩

theorem nonempty_iso_complement : Nonempty (m.graph ≃g m.complement.graph) := by
  have ⟨e⟩ := nonempty_iso_graph hp hn he
  have ⟨c⟩ := nonempty_iso_compl hp
  exact ⟨e.trans <| c.trans <| (CliqueCount.complIso e).symm.trans m.complGraphIso.symm⟩

theorem degree_paley {v : Nat} (hv : v < m.n) : m.degree v = (p - 1) / 2 := by
  classical
  have hd : m.degree v = #{u ∈ range m.n | m.edge v u} := by
    show _ = ((List.range m.n : Multiset Nat).filter (m.edge v ·)).card
    simp [degree, neighbors]
  rw [hd, ← card_neighbors hp (v : ZMod p)]
  refine card_bij (fun u _ => (u : ZMod p)) ?maps ?inj ?surj
  case maps =>
    intro u hu
    have ⟨hu, hvu⟩ := mem_filter.mp hu
    simpa using he v u hv (mem_range.mp hu) |>.mp hvu
  case inj =>
    intro u hu w hw h
    have hu := mem_range.mp (mem_filter.mp hu).1
    have hw := mem_range.mp (mem_filter.mp hw).1
    rwa [ZMod.natCast_eq_natCast_iff', Nat.mod_eq_of_lt (hn ▸ hu), Nat.mod_eq_of_lt (hn ▸ hw)] at h
  case surj =>
    intro x hx
    have hlt : x.val < m.n := hn ▸ x.val_lt
    refine ⟨x.val, mem_filter.mpr ⟨mem_range.mpr hlt, he v x.val hv hlt |>.mpr ?_⟩, ZMod.natCast_zmod_val x⟩
    simpa using hx

end Matrix

open AdjacencyMatrix Paley in
-- The search for the modulus comes to an end for exactly these orders, and at the least modulus. The graph joins
-- the vertices with a nonzero square difference, and for a prime order it is regular and self-complementary.
theorem paleyGraph?_exact (n : Nat) :
    ((∃ g, paleyGraph? n = some g) ↔ n ≤ 4294311893) ∧
    ∀ g, paleyGraph? n = some g → ∃ p, paleyPrime? (max n 5) = some p ∧
      IsLeast {q | max n 5 ≤ q ∧ q % 4 = 1 ∧ q.Prime} p ∧ g.n = n ∧
      (∀ i j, i < n → j < n →
        (g.edge i j ↔ (i - j : ZMod p) ≠ 0 ∧ IsSquare (i - j : ZMod p)) ∧
        (g.edge i j ↔ (j - i : ZMod p) ≠ 0 ∧ IsSquare (j - i : ZMod p))) ∧
      (n % 4 = 1 → n.Prime →
        (∀ v < n, g.degree v = (n - 1) / 2) ∧ Nonempty (g.graph ≃g g.complement.graph)) := by
  constructor
  case left =>
    have hm : max n 5 ≤ 4294311893 ↔ n ≤ 4294311893 := by omega
    simp only [paleyGraph?_some, ← hm, ← exists_paleyPrime?_iff]
    exact ⟨fun ⟨_, p, h, _⟩ => ⟨p, h⟩, fun ⟨p, h⟩ => ⟨_, p, h, rfl⟩⟩
  case right =>
    intro g hg
    obtain ⟨p, hs, rfl⟩ := paleyGraph?_some.mp hg
    have hl := (paleyPrime?_some hs).1
    have ⟨⟨hle, hm, hp⟩, hmin⟩ := hl
    have : Fact p.Prime := ⟨hp⟩
    have hn : (ofAdj n (joins p)).n = n := n_ofAdj ..
    have he {i j} (hi : i < n) (hj : j < n) := edge_joins hm hi hj
    refine ⟨p, hs, hl, hn, fun i j hi hj => ⟨he hi hj, (he hi hj).trans <| residue_sub_comm hm⟩, fun hm' hp' => ?_⟩
    have h5 : 5 ≤ n := by
      have := hp'.two_le
      omega
    obtain rfl : p = n := le_antisymm (hmin ⟨by omega, hm', hp'⟩) ((le_max_left n 5).trans hle)
    have he' : ∀ i j, i < (ofAdj p (joins p)).n → j < (ofAdj p (joins p)).n →
        ((ofAdj p (joins p)).edge i j ↔ Residue (i - j : ZMod p)) := by
      rw [hn]
      exact fun i j => he
    exact ⟨fun v hv => degree_paley hm hn he' (hn.symm ▸ hv), nonempty_iso_complement hm hn he'⟩
