import Mathlib.Algebra.BigOperators.Group.Finset.Basic
import Mathlib.Data.Nat.Bits

-- Loops over a list that update one piece of state.

namespace Loop

theorem foldl_induction {step : σ → ι → σ} (P : σ → Prop) {l : List ι}
    (h : ∀ s, ∀ i ∈ l, P s → P (step s i)) {s} (hs : P s) : P (l.foldl step s) := by
  induction l generalizing s
  case nil          => exact hs
  case cons i l ih  => exact ih (fun s j hj => h s j <| .tail _ hj) (h s i (.head _) hs)

-- A loop whose iterations each establish the assertion `read` or leave it as it is.
theorem foldl_or (P read : σ → Prop) {step : σ → ι → σ} {touches : ι → Prop} {l : List ι}
    (h : ∀ s, ∀ i ∈ l, P s → P (step s i) ∧ (read (step s i) ↔ read s ∨ touches i)) {s} (hs : P s) :
    P (l.foldl step s) ∧ (read (l.foldl step s) ↔ read s ∨ ∃ i ∈ l, touches i) := by
  induction l generalizing s
  case nil => simp [hs]
  case cons i l ih =>
    have ⟨hp, hr⟩ := h s i (.head _) hs
    have ⟨hp, hl⟩ := ih (fun s j hj => h s j <| .tail _ hj) hp
    refine ⟨hp, ?_⟩
    rw [List.foldl_cons, hl, hr, List.exists_mem_cons_iff, or_assoc]

-- A loop whose iterations each negate the bit `read` or leave it as it is.
theorem foldl_xor (P : σ → Prop) (read : σ → Bool) {step : σ → ι → σ} (touches : ι → Bool) {l : List ι}
    (h : ∀ s, ∀ i ∈ l, P s → P (step s i) ∧ read (step s i) = (read s ^^ touches i)) {s} (hs : P s) :
    P (l.foldl step s) ∧ read (l.foldl step s) = (read s ^^ (l.countP touches).bodd) := by
  induction l generalizing s
  case nil => simp [hs]
  case cons i l ih =>
    have ⟨hp, hr⟩ := h s i (.head _) hs
    have ⟨hp, hl⟩ := ih (fun s j hj => h s j <| .tail _ hj) hp
    refine ⟨hp, ?_⟩
    rw [List.foldl_cons, hl, hr, List.countP_cons, Nat.bodd_add, Bool.xor_assoc]
    cases touches i <;> simp

-- `for i in l { .. }` where an iteration may `break`.
def run (body : σ → ι → ForInStep σ) (s : σ) : List ι → σ
  | []     => s
  | i :: l =>
    match body s i with
    | .done s  => s
    | .yield s => run body s l

theorem run_induction {body : σ → ι → ForInStep σ} (P : σ → Prop) {l : List ι}
    (h : ∀ s, ∀ i ∈ l, P s → P (body s i).value) {s} (hs : P s) : P (run body s l) := by
  induction l generalizing s
  case nil => exact hs
  case cons i l ih =>
    have hp := h s i (.head _) hs
    rw [run]
    cases hb : body s i <;> rw [hb] at hp
    case done s  => exact hp
    case yield s => exact ih (fun s j hj => h s j <| .tail _ hj) hp

theorem run_yield {step : σ → ι → σ} {s} {l : List ι} : run (fun s i => .yield (step s i)) s l = l.foldl step s := by
  induction l generalizing s
  case nil          => rfl
  case cons i l ih  => exact ih

-- Two loops whose iterations keep their states related, and stop together.
theorem run_rel {body : σ → ι → ForInStep σ} {body' : τ → ι → ForInStep τ} (R : σ → τ → Prop) {l : List ι}
    (h : ∀ {s t i}, R s t → ∃ s' t', R s' t' ∧ (body s i = .done s' ∧ body' t i = .done t' ∨
      body s i = .yield s' ∧ body' t i = .yield t')) {s t} (hs : R s t) : R (run body s l) (run body' t l) := by
  induction l generalizing s t
  case nil => exact hs
  case cons i l ih =>
    have ⟨s', t', hr, hb⟩ := h (i := i) hs
    rw [run, run]
    rcases hb with ⟨hb, hb'⟩ | ⟨hb, hb'⟩ <;> rw [hb, hb']
    case inl => exact hr
    case inr => exact ih hr

-- The iterations that a loop comes to, each with the state that it finds.
def passes (body : σ → ι → ForInStep σ) (s : σ) : List ι → List (σ × ι)
  | []     => []
  | i :: l =>
    (s, i) :: match body s i with
      | .done _  => []
      | .yield s => passes body s l

theorem passes_prefix {body : σ → ι → ForInStep σ} {s : σ} {l : List ι} : (passes body s l).map (·.2) <+: l := by
  induction l generalizing s
  case nil => exact List.prefix_rfl
  case cons i l ih =>
    rw [passes, List.map_cons, List.prefix_cons_inj]
    cases body s i
    case done  => exact List.nil_prefix
    case yield => exact ih

-- Assertions about the state and the iterations so far.
structure History (P : List (σ × ι) → σ → Prop) (body : σ → ι → ForInStep σ) (l : List ι) : Prop where
  step : ∀ past s i, past.map (·.2) ++ [i] <+: l → P past s → P (past ++ [(s, i)]) (body s i).value

namespace History

variable {P : List (σ × ι) → σ → Prop} {body : σ → ι → ForInStep σ} {l l' : List ι} {s : σ}

theorem run_from (past : List (σ × ι)) (h : History P body l) (hl : past.map (·.2) ++ l' <+: l) (hs : P past s) :
    P (past ++ passes body s l') (run body s l') ∧
      ∀ before pass after, passes body s l' = before ++ pass :: after → P (past ++ before) pass.1 := by
  induction l' generalizing past s
  case nil => simpa [passes, run] using hs
  case cons i l' ih =>
    have hp := h.step past s i (List.IsPrefix.trans (by simp) hl) hs
    rw [passes, run]
    cases hb : body s i <;> rw [hb] at hp
    case done s' =>
      refine ⟨hp, fun before pass after he => ?_⟩
      obtain ⟨rfl, rfl, _⟩ : before = [] ∧ pass = (s, i) ∧ after = [] := by
        cases before <;> simp_all
      simpa using hs
    case yield s' =>
      have ⟨hr, hq⟩ := ih _ (by simpa using hl) hp
      rw [List.append_assoc] at hr
      refine ⟨hr, fun before pass after he => ?_⟩
      cases before
      case nil =>
        obtain ⟨rfl, _⟩ := List.cons_eq_cons.mp he
        simpa using hs
      case cons first before =>
        obtain ⟨rfl, ht⟩ := List.cons_eq_cons.mp he
        simpa using hq before pass after ht

variable (h : History P body l) (hs : P [] s)
include h hs

theorem final : P (passes body s l) (run body s l) :=
  run_from [] h List.prefix_rfl hs |>.1

-- Each iteration of the loop is preceded by those before it.
theorem pass {before after pass} (he : passes body s l = before ++ pass :: after) : P before pass.1 :=
  run_from [] h List.prefix_rfl hs |>.2 before pass after he

end History

-- What `read` shows of the state in the course of a loop, from the start to the end.
def trace (body : σ → ι → ForInStep σ) (read : σ → β) (s : σ) (l : List ι) : List β :=
  (passes body s l).map (fun pass => read pass.1) ++ [read (run body s l)]

theorem trace_induction {body : σ → ι → ForInStep σ} {read : σ → β} (P : List β → σ → Prop) {l : List ι}
    (h : ∀ seen s i, P seen s → P (seen ++ [read (body s i).value]) (body s i).value) {s}
    (hs : P [read s] s) : P (trace body read s l) (run body s l) := by
  let P' (past : List (σ × ι)) (s : σ) : Prop := P (past.map (fun pass => read pass.1) ++ [read s]) s
  have hh : History P' body l := by
    refine ⟨fun past s i _ hp => ?_⟩
    dsimp only [P']
    rw [List.map_append]
    exact h _ s i hp
  exact hh.final hs

-- Loops whose iterations can fail, but do not.
theorem mapM_some {f : ι → Option α} {g : ι → α} {l : List ι} (h : ∀ i ∈ l, f i = some (g i)) :
    l.mapM f = some (l.map g) := by
  induction l
  case nil => rfl
  case cons i l hi =>
    rw [List.mapM_cons, h i (.head _), hi fun j hj => h j (.tail _ hj)]
    rfl

theorem foldlM_some {step : σ → ι → Option σ} {step' : σ → ι → σ} (P : σ → Prop) {l : List ι}
    (h : ∀ s, ∀ i ∈ l, P s → step s i = some (step' s i) ∧ P (step' s i)) {s} (hs : P s) :
    l.foldlM step s = some (l.foldl step' s) := by
  induction l generalizing s
  case nil => rfl
  case cons i l hi =>
    have ⟨e, hp⟩ := h s i (.head _) hs
    rw [List.foldlM_cons, e]
    exact hi (fun s j hj => h s j <| .tail _ hj) hp

-- The rule `foldl_or` for a loop whose iterations can fail.
theorem foldlM_or (P read : σ → Prop) {step : σ → ι → Option σ} {touches : ι → Prop} {l : List ι}
    (h : ∀ s s', ∀ i ∈ l, P s → step s i = some s' → P s' ∧ (read s' ↔ read s ∨ touches i)) {s s'} (hs : P s)
    (hr : l.foldlM step s = some s') : P s' ∧ (read s' ↔ read s ∨ ∃ i ∈ l, touches i) := by
  induction l generalizing s
  case nil =>
    cases hr
    simp [hs]
  case cons i l ih =>
    rw [List.foldlM_cons] at hr
    have ⟨t, ht, hr⟩ := Option.bind_eq_some_iff.mp hr
    have ⟨hp, hi⟩ := h s t i (.head _) hs ht
    have ⟨hp, hl⟩ := ih (fun s s' j hj => h s s' j <| .tail _ hj) hp hr
    refine ⟨hp, ?_⟩
    rw [hl, hi, List.exists_mem_cons_iff, or_assoc]

theorem foldl_range_sum [AddCommMonoid M] {n : Nat} {body : M → Nat → M} (f : Nat → M)
    (hb : ∀ acc, ∀ i < n, body acc i = acc + f i) (acc : M) :
    (List.range n).foldl body acc = acc + ∑ i ∈ Finset.range n, f i := by
  induction n
  case zero => simp
  case succ n hi =>
    have hn := hi fun acc i hi => hb acc i (by omega)
    simp [List.range_succ, hn, hb, Finset.sum_range_succ, add_assoc]

-- A loop whose iterations write entries of the state, seen through one entry `read`. All iterations
-- that touch the entry write the same value `w` to it.
structure Writes (step : σ → ι → σ) (P : σ → Prop) (read : σ → β) (touches : ι → Prop) (w : β)
    (l : List ι) : Prop where
  inv  : ∀ s, ∀ i ∈ l, P s → P (step s i)
  hit  : ∀ s, ∀ i ∈ l, P s → touches i → read (step s i) = w
  miss : ∀ s, ∀ i ∈ l, P s → ¬touches i → read (step s i) = read s

namespace Writes

variable {step : σ → ι → σ} {P : σ → Prop} {read : σ → β} {touches : ι → Prop} {w : β} {l : List ι}

theorem tail (h : Writes step P read touches w (i :: l)) : Writes step P read touches w l where
  inv s j hj  := h.inv s j (.tail _ hj)
  hit s j hj  := h.hit s j (.tail _ hj)
  miss s j hj := h.miss s j (.tail _ hj)

theorem foldl_hit (h : Writes step P read touches w l) {s} (hs : P s)
    (ht : read s = w ∨ ∃ i ∈ l, touches i) : read (l.foldl step s) = w := by
  induction l generalizing s
  case nil => simpa using ht
  case cons i l ih =>
    refine ih h.tail (h.inv s i (.head _) hs) ?_
    by_cases hi : touches i
    case pos => exact .inl <| h.hit s i (.head _) hs hi
    case neg => simpa [h.miss s i (.head _) hs hi, hi] using ht

theorem foldl_miss (h : Writes step P read touches w l) {s} (hs : P s)
    (ht : ∀ i ∈ l, ¬touches i) : read (l.foldl step s) = read s := by
  induction l generalizing s
  case nil => rfl
  case cons i l ih =>
    rw [List.foldl_cons, ih h.tail (h.inv s i (.head _) hs) (fun j hj => ht j <| .tail _ hj)]
    exact h.miss s i (.head _) hs (ht i <| .head _)

end Writes
end Loop
