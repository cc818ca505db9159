import Extremal.Lib.Record
import Extremal.Strategies.Moves
import Extremal.Strategies.Theorems.Session

open Record

section Best

variable {key : μ → κ} {best asp reg : Option μ} {move : μ} {P : μ → Prop}

theorem forall_mem_keepBest [LE κ] [DecidableLE κ] (hb : ∀ m ∈ best, P m) (hm : P move) :
    ∀ m ∈ keepBest key best move, P m := by
  rw [keepBest]
  split
  case isTrue  => exact hb
  case isFalse => simpa using hm

theorem forall_mem_chooseMove [LT κ] [DecidableLT κ] (ha : ∀ m ∈ asp, P m) (hr : ∀ m ∈ reg, P m) :
    ∀ m ∈ chooseMove key asp reg, P m := by
  cases asp <;> cases reg <;> simp only [chooseMove]
  case none.none => exact ha
  case none.some => exact hr
  case some.none => exact ha
  case some.some =>
    split
    case isTrue  => exact ha
    case isFalse => exact hr

end Best

-- The moves found satisfy `P`, and the scan has only logged sound observations since `s`.
structure MoveScan.Fits (P : μ → Prop) (n : Nat) (s : Session) (scan : MoveScan μ) : Prop where
  regular    : ∀ move ∈ scan.bestMove, P move
  aspiration : ∀ move ∈ scan.bestAspiration, P move
  logged     : s.Extends n scan.session

namespace MoveScan.Fits

variable {μ : Type} {P : μ → Prop} {n : Nat} {s : Session} {scan : MoveScan μ} {key : μ → κ}

theorem start (P : μ → Prop) (n : Nat) (s : Session) : (MoveScan.start s).Fits P n s where
  regular    := by simp [MoveScan.start]
  aspiration := by simp [MoveScan.start]
  logged     := .refl n s

variable (h : scan.Fits P n s)
include h

theorem log {events : List Event} (he : ∀ e ∈ events, e.Sound n) :
    { scan with session := scan.session.log events }.Fits P n s :=
  ⟨h.regular, h.aspiration, h.logged.log he⟩

theorem consider [LE κ] [DecidableLE κ] {move : μ} (hm : P move) {events : List Event} (he : ∀ e ∈ events, e.Sound n)
    (isTabu aspires : Bool) : (scan.consider key move isTabu aspires events).Fits P n s where
  regular := by
    rw [MoveScan.consider]
    cases isTabu
    case true  => exact h.regular
    case false => exact forall_mem_keepBest h.regular hm
  aspiration := by
    rw [MoveScan.consider]
    cases aspires
    case true  => exact forall_mem_keepBest h.aspiration hm
    case false => exact h.aspiration
  logged := h.logged.log he

theorem chosen [LT κ] [DecidableLT κ] : ∀ move ∈ scan.chosen key, P move :=
  forall_mem_chooseMove h.aspiration h.regular

end MoveScan.Fits

section Rank

-- The moves are ranked in a linear order.
variable {μ κ β : Type} [LinearOrder β] {key : μ → κ} {rank : μ → β}

section Keep

variable [LE κ] [DecidableLE κ] (hle : ∀ m m', key m ≤ key m' ↔ rank m ≤ rank m')
include hle

theorem kept_keepBest {best : Option μ} {moves : Set μ} (h : Kept rank moves best) (move : μ) :
    Kept rank (insert move moves) (keepBest key best move) := by
  cases best
  case none       => exact h.insert_replace <| by simp
  case some first =>
    rw [keepBest, Option.any_some]
    split
    case isTrue hb  => exact h.insert_keep ⟨first, rfl, hle _ _ |>.mp <| of_decide_eq_true hb⟩
    case isFalse hb =>
      have hb : ¬key first ≤ key move := by simpa using hb
      exact h.insert_replace <| by simpa [hle] using hb

theorem kept_foldl {best : Option μ} {moves : Set μ} (h : Kept rank moves best) (l : List μ) :
    Kept rank (moves ∪ {m | m ∈ l}) (l.foldl (keepBest key) best) := by
  induction l generalizing best moves
  case nil => simpa using h
  case cons move l ih =>
    have hs : moves ∪ {m | m ∈ move :: l} = insert move moves ∪ {m | m ∈ l} := by
      ext m
      simp
      tauto
    exact hs ▸ ih (kept_keepBest hle h move)

end Keep

theorem kept_chooseMove [LT κ] [DecidableLT κ] (hlt : ∀ m m', key m < key m' ↔ rank m < rank m')
    {asp reg : Option μ} {aspiring regular : Set μ} (ha : Kept rank aspiring asp) (hr : Kept rank regular reg) :
    Kept rank (regular ∪ aspiring) (chooseMove key asp reg) := by
  cases asp <;> cases reg <;> simp only [chooseMove]
  case none.none => rwa [ha.eq_empty, Set.union_empty]
  case none.some => rwa [ha.eq_empty, Set.union_empty]
  case some.none => rwa [hr.eq_empty, Set.empty_union]
  case some.some asp reg =>
    have ha := ha.least asp rfl
    have hr := hr.least reg rfl
    split
    case isTrue h =>
      refine .some ⟨.inr ha.mem, ?_⟩
      rintro m (hm | hm)
      case inl => exact (hlt _ _ |>.mp h).le.trans <| hr.le m hm
      case inr => exact ha.le m hm
    case isFalse h =>
      refine .some ⟨.inl hr.mem, ?_⟩
      rintro m (hm | hm)
      case inl => exact hr.le m hm
      case inr => exact (not_lt.mp <| mt (hlt _ _).mpr h).trans <| ha.le m hm

namespace MoveScan

variable [LE κ] [DecidableLE κ] {moveOf : ι → μ} {isTabu aspires : ι → Bool} {events : ι → List Event} {l : List ι}

-- The scan of a list keeps the best moves of two of its sublists.
theorem foldl_consider (key : μ → κ) (moveOf : ι → μ) (isTabu aspires : ι → Bool) (events : ι → List Event) (l : List ι)
    (scan : MoveScan μ) :
    let scan' := l.foldl (fun scan i => scan.consider key (moveOf i) (isTabu i) (aspires i) (events i)) scan
    scan'.bestMove = ((l.filter (!isTabu ·)).map moveOf).foldl (keepBest key) scan.bestMove ∧
      scan'.bestAspiration = ((l.filter aspires).map moveOf).foldl (keepBest key) scan.bestAspiration := by
  induction l generalizing scan
  case nil => exact ⟨rfl, rfl⟩
  case cons i l ih =>
    have ⟨hr, ha⟩ := ih (scan.consider key (moveOf i) (isTabu i) (aspires i) (events i))
    refine ⟨hr.trans ?_, ha.trans ?_⟩
    case refine_1 => cases ht : isTabu i <;> simp [consider, ht]
    case refine_2 => cases ht : aspires i <;> simp [consider, ht]

-- The chosen move is the best one of those that are not tabu or aspire.
theorem kept_chosen [LT κ] [DecidableLT κ] (hle : ∀ m m', key m ≤ key m' ↔ rank m ≤ rank m')
    (hlt : ∀ m m', key m < key m' ↔ rank m < rank m') (s : Session) :
    Kept rank {m | ∃ i ∈ l, (isTabu i = false ∨ aspires i = true) ∧ moveOf i = m}
      (l.foldl (fun scan i => scan.consider key (moveOf i) (isTabu i) (aspires i) (events i)) (start s) |>.chosen key) := by
  have ⟨hr, ha⟩ := foldl_consider key moveOf isTabu aspires events l (start s)
  have hc := kept_chooseMove hlt (kept_foldl hle (Kept.empty rank) ((l.filter aspires).map moveOf))
    (kept_foldl hle (Kept.empty rank) ((l.filter (!isTabu ·)).map moveOf))
  have hs : {m | ∃ i ∈ l, (isTabu i = false ∨ aspires i = true) ∧ moveOf i = m} =
      ∅ ∪ {m | m ∈ (l.filter (!isTabu ·)).map moveOf} ∪ (∅ ∪ {m | m ∈ (l.filter aspires).map moveOf}) := by
    ext m
    simp
    grind
  rw [chosen, hr, ha, hs]
  exact hc

end MoveScan
end Rank
