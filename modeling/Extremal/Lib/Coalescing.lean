import Mathlib.Data.List.Induction
import Mathlib.Data.List.ReduceOption

-- Logs from which all writes but the last one are dropped, and in which that one comes after everything else.

namespace Coalescing

variable {ε ε' σ τ α : Type}

def coalesce (p : ε → Bool) (log : List ε) : List ε :=
  log.filter (!p ·) ++ (log.filter p).getLast?.toList

theorem map_coalesce {p : ε → Bool} {p' : ε' → Bool} {f : ε → ε'} (h : ∀ e, p' (f e) = p e) (log : List ε) :
    (coalesce p log).map f = coalesce p' (log.map f) := by
  have hp : p' ∘ f = p := funext h
  have hn : (!p' ·) ∘ f = (!p ·) := funext fun e => congrArg (!·) (h e)
  rw [coalesce, coalesce, List.map_append, List.filter_map, List.filter_map, hp, hn, List.getLast?_map]
  cases (log.filter p).getLast? <;> rfl

section View

variable {step : σ → ε → σ} {p : ε → Bool} {view : σ → τ} (hw : ∀ s e, p e → view (step s e) = view s)
include hw

theorem view_foldl_writes {log : List ε} (h : ∀ e ∈ log, p e) (s : σ) : view (log.foldl step s) = view s := by
  induction log generalizing s with
  | nil => rfl
  | cons e log ih =>
    have ⟨he, hl⟩ := List.forall_mem_cons.mp h
    exact (ih hl _).trans <| hw s e he

variable (hs : ∀ s s' e, view s = view s' → view (step s e) = view (step s' e))
include hs

theorem view_foldl_filter {s s' : σ} (h : view s = view s') (log : List ε) :
    view ((log.filter (!p ·)).foldl step s) = view (log.foldl step s') := by
  induction log generalizing s s' with
  | nil => exact h
  | cons e log ih =>
    by_cases he : p e
    case pos =>
      rw [List.filter_cons_of_neg (by simpa using he)]
      exact ih <| h.trans (hw s' e he).symm
    case neg =>
      rw [List.filter_cons_of_pos (by simpa using he)]
      exact ih <| hs s s' e h

-- What the writes do not change is the same with and without coalescing.
theorem view_foldl_coalesce (s : σ) (log : List ε) :
    view ((coalesce p log).foldl step s) = view (log.foldl step s) := by
  have hl : ∀ e ∈ (log.filter p).getLast?.toList, p e := by
    intro e he
    exact List.of_mem_filter <| List.mem_of_getLast? <| Option.mem_toList.mp he
  rw [coalesce, List.foldl_append, view_foldl_writes hw hl]
  exact view_foldl_filter hw hs rfl log

end View

-- The events of a log as they concern one register. A write may leave the register as it is.
inductive Access (α : Type)
  | write (value : Option α)
  | reset
  | other

namespace Access

def isWrite : Access α → Bool
  | write _ => true
  | _       => false

def isReset : Access α → Bool
  | reset => true
  | _     => false

def value : Access α → Option (Option α)
  | write value => some value
  | _           => none

def apply (initial x : α) : Access α → α
  | write value => value.getD x
  | reset       => initial
  | other       => x

end Access

open Access

variable {initial x : α} {log : List (Access α)}

def run (initial x : α) (log : List (Access α)) : α :=
  log.foldl (Access.apply initial) x

def lastWrite (log : List (Access α)) : Option (Option α) :=
  (log.filterMap value).getLast?

-- Adds what an event writes to what has been written since the last reset.
def Access.collect (values : List (Option α)) : Access α → List (Option α)
  | write value => values ++ [value]
  | reset       => []
  | other       => values

def sinceReset (log : List (Access α)) : List (Option α) :=
  log.foldl Access.collect []

-- The value that the writes since the last reset have found.
def base (initial x : α) (log : List (Access α)) : α :=
  if log.any isReset then initial else x

def latest (values : List (Option α)) : Option α :=
  values.reduceOption.getLast?

theorem run_concat (access : Access α) : run initial x (log ++ [access]) = access.apply initial (run initial x log) := by
  rw [run, List.foldl_concat, run]

theorem sinceReset_concat (access : Access α) : sinceReset (log ++ [access]) = access.collect (sinceReset log) := by
  rw [sinceReset, List.foldl_concat, sinceReset]

theorem base_concat (access : Access α) :
    base initial x (log ++ [access]) = if access.isReset then initial else base initial x log := by
  cases h : access.isReset <;> simp [base, h]

theorem latest_concat_some (values : List (Option α)) (v : α) : latest (values ++ [some v]) = some v := by
  rw [latest, List.reduceOption_append]
  exact List.getLast?_concat

theorem latest_concat_none (values : List (Option α)) : latest (values ++ [none]) = latest values := by
  rw [latest, List.reduceOption_append]
  exact congrArg _ <| List.append_nil _

theorem run_eq (initial x : α) (log : List (Access α)) :
    run initial x log = (latest (sinceReset log)).getD (base initial x log) := by
  induction log using List.reverseRecOn with
  | nil => rfl
  | append_singleton log access ih =>
    rw [run_concat, sinceReset_concat, base_concat, ih]
    cases access
    case write value =>
      cases value
      case none   => exact congrArg (Option.getD · _) (latest_concat_none _).symm
      case some v => exact congrArg (Option.getD · _) (latest_concat_some _ v).symm
    case reset => rfl
    case other => rfl

theorem run_others : run initial x (log.filter (!isWrite ·)) = base initial x log := by
  induction log using List.reverseRecOn with
  | nil => rfl
  | append_singleton log access ih =>
    rw [List.filter_append, base_concat]
    cases access
    case write => exact (congrArg (run _ _) <| List.append_nil _).trans ih
    case reset => exact run_concat _
    case other => exact (run_concat _).trans ih

theorem lastWrite_concat (access : Access α) : lastWrite (log ++ [access]) = access.value.or (lastWrite log) := by
  rw [lastWrite, List.filterMap_append, List.getLast?_append]
  cases access <;> rfl

theorem bind_getLast?_filter (log : List (Access α)) : (log.filter isWrite).getLast?.bind value = lastWrite log := by
  induction log using List.reverseRecOn with
  | nil => rfl
  | append_singleton log access ih =>
    rw [List.filter_append, List.getLast?_append, lastWrite_concat, ← ih]
    cases access <;> rfl

-- Only the last write is seen, and it finds what the last reset has left.
theorem run_coalesce (initial x : α) (log : List (Access α)) :
    run initial x (coalesce isWrite log) = (lastWrite log).join.getD (base initial x log) := by
  have ho : (log.filter (!isWrite ·)).foldl (Access.apply initial) x = base initial x log := run_others
  rw [coalesce, run, List.foldl_append, ho, ← bind_getLast?_filter]
  cases h : (log.filter isWrite).getLast?
  case none => rfl
  case some access =>
    have hw := List.of_mem_filter <| List.mem_of_getLast? h
    cases access
    case write       => rfl
    case reset | other => cases hw

-- A write before the last reset is done again by the coalesced log, and what the last write leaves out is lost.
structure Harmless (initial x : α) (log : List (Access α)) : Prop where
  undone  : sinceReset log = [] → ∀ v, lastWrite log = some (some v) → v = initial
  omitted : lastWrite log = some none → ∀ v ∈ latest (sinceReset log), v = base initial x log

theorem getLast?_sinceReset (h : sinceReset log ≠ []) : (sinceReset log).getLast? = lastWrite log := by
  induction log using List.reverseRecOn with
  | nil => exact absurd rfl h
  | append_singleton log access ih =>
    rw [sinceReset_concat] at h ⊢
    rw [lastWrite_concat]
    cases access
    case write => exact List.getLast?_concat
    case reset => exact absurd rfl h
    case other => exact ih h

theorem base_of_undone {value : Option α} (h : sinceReset log = []) (hw : lastWrite log = some value) :
    base initial x log = initial := by
  induction log using List.reverseRecOn with
  | nil => cases hw
  | append_singleton log access ih =>
    rw [sinceReset_concat] at h
    rw [lastWrite_concat] at hw
    rw [base_concat]
    cases access
    case write => exact absurd h <| List.append_ne_nil_of_right_ne_nil _ <| List.cons_ne_nil _ _
    case reset => rfl
    case other => exact ih h hw

theorem latest_of_getLast? {values : List (Option α)} {v : α} (h : values.getLast? = some (some v)) :
    latest values = some v := by
  have ⟨values', h⟩ := List.getLast?_eq_some_iff.mp h
  rw [h, latest_concat_some]

theorem getD_eq_iff {value : Option α} : value.getD x = x ↔ ∀ v ∈ value, v = x := by
  cases value <;> simp

theorem run_coalesce_eq_iff : run initial x (coalesce isWrite log) = run initial x log ↔ Harmless initial x log := by
  rw [run_coalesce, run_eq]
  match hw : lastWrite log with
  | none =>
    have hs : sinceReset log = [] := by
      by_contra hs
      exact hs <| List.getLast?_eq_none_iff.mp <| (getLast?_sinceReset hs).trans hw
    rw [hs]
    exact iff_of_true rfl ⟨by simp [hw], by simp [hw]⟩
  | some none =>
    exact (eq_comm.trans getD_eq_iff).trans ⟨fun h => ⟨by simp [hw], fun _ => h⟩, fun h => h.omitted hw⟩
  | some (some v) =>
    by_cases hs : sinceReset log = []
    case pos =>
      have hb : base initial x log = initial := base_of_undone hs hw
      rw [hs, hb]
      refine ⟨fun h => ⟨fun _ v' hv => ?_, by simp [hw]⟩, fun h => h.undone hs v hw⟩
      cases hw.symm.trans hv
      exact h
    case neg =>
      rw [latest_of_getLast? <| (getLast?_sinceReset hs).trans hw]
      exact iff_of_true rfl ⟨fun h => absurd h hs, by simp [hw]⟩

end Coalescing
