import Extremal.Lib.Machine
import Mathlib.Logic.Function.Basic

-- Programs that call an environment. A call `c` is answered by a `ρ c`, and a program may fail.
inductive Program (ι : Type) (ρ : ι → Type) (ε α : Type)
  | ret (a : α)
  | throw (e : ε)
  | call (c : ι) (next : ρ c → Program ι ρ ε α)

namespace Program

variable {ι : Type} {ρ : ι → Type} {ε ε' α β σ : Type}

def bind : Program ι ρ ε α → (α → Program ι ρ ε β) → Program ι ρ ε β
  | ret a, f       => f a
  | throw e, _     => throw e
  | call c next, f => call c fun r => (next r).bind f

instance : Monad (Program ι ρ ε) where
  pure := ret
  bind := bind

theorem bind_ret (p : Program ι ρ ε α) : p >>= ret = p := by
  show p.bind ret = p
  induction p
  case ret | throw => rfl
  case call c _ ih => exact congrArg (call c) <| funext ih

def perform (c : ι) : Program ι ρ ε (ρ c) :=
  call c ret

def ofExcept : Except ε α → Program ι ρ ε α
  | .ok a    => ret a
  | .error e => throw e

-- Goes on with the outcome of a program.
def attempt : Program ι ρ ε α → (Except ε α → Program ι ρ ε' β) → Program ι ρ ε' β
  | ret a, f       => f (.ok a)
  | throw e, f     => f (.error e)
  | call c next, f => call c fun r => (next r).attempt f

-- Runs a program alone.
def run (handle : (c : ι) → σ → ρ c × σ) : Program ι ρ ε α → σ → Except ε α × σ
  | ret a, s       => (.ok a, s)
  | throw e, s     => (.error e, s)
  | call c next, s => (next (handle c s).1).run handle (handle c s).2

section Run

variable {handle : (c : ι) → σ → ρ c × σ} {s : σ}

@[simp]
theorem run_call (c : ι) (next : ρ c → Program ι ρ ε α) :
    (call c next).run handle s = (next (handle c s).1).run handle (handle c s).2 := rfl

@[simp]
theorem run_ofExcept (x : Except ε α) : (ofExcept x : Program ι ρ ε α).run handle s = (x, s) := by
  cases x <;> rfl

@[simp]
theorem run_perform_bind (c : ι) (f : ρ c → Program ι ρ ε α) :
    (perform c >>= f).run handle s = (f (handle c s).1).run handle (handle c s).2 := rfl

theorem run_bind (p : Program ι ρ ε α) (f : α → Program ι ρ ε β) :
    (p >>= f).run handle s =
      match p.run handle s with
      | (.ok a, s')    => (f a).run handle s'
      | (.error e, s') => (.error e, s') := by
  show (p.bind f).run handle s = _
  induction p generalizing s
  case ret | throw  => rfl
  case call c next ih => exact ih (handle c s).1

end Run

-- A program that keeps a contract: it makes only calls that meet a condition, as long as the answers meet theirs.
def Meets (C : ι → Prop) (A : (c : ι) → ρ c → Prop) (Q : Except ε α → Prop) : Program ι ρ ε α → Prop
  | ret a       => Q (.ok a)
  | throw e     => Q (.error e)
  | call c next => C c ∧ ∀ r, A c r → (next r).Meets C A Q

section Meets

variable {C : ι → Prop} {A : (c : ι) → ρ c → Prop} {Q : Except ε α → Prop} {p : Program ι ρ ε α}

theorem meets_ofExcept {x : Except ε α} (h : Q x) : (ofExcept x : Program ι ρ ε α).Meets C A Q := by
  cases x <;> exact h

theorem meets_perform {c : ι} {Q : Except ε (ρ c) → Prop} (h : C c) (hQ : ∀ r, A c r → Q (.ok r)) :
    (perform c : Program ι ρ ε (ρ c)).Meets C A Q :=
  ⟨h, hQ⟩

theorem Meets.mono {D : ι → Prop} {R : Except ε α → Prop} (h : p.Meets C A Q) (hC : ∀ c, C c → D c)
    (hQ : ∀ r, Q r → R r) : p.Meets D A R := by
  induction p
  case ret | throw    => exact hQ _ h
  case call c next ih => exact ⟨hC c h.1, fun r hr => ih r (h.2 r hr)⟩

theorem Meets.bind {f : α → Program ι ρ ε β} {R : Except ε β → Prop} (h : p.Meets C A Q)
    (hok : ∀ a, Q (.ok a) → (f a).Meets C A R) (herror : ∀ e, Q (.error e) → R (.error e)) : (p >>= f).Meets C A R := by
  show (p.bind f).Meets C A R
  induction p
  case ret a          => exact hok a h
  case throw e        => exact herror e h
  case call c next ih => exact ⟨h.1, fun r hr => ih r (h.2 r hr)⟩

theorem Meets.attempt {f : Except ε α → Program ι ρ ε' β} {R : Except ε' β → Prop} (h : p.Meets C A Q)
    (hf : ∀ r, Q r → (f r).Meets C A R) : (p.attempt f).Meets C A R := by
  induction p
  case ret | throw    => exact hf _ h
  case call c next ih => exact ⟨h.1, fun r hr => ih r (h.2 r hr)⟩

end Meets

end Program

-- Programs that take turns on a shared state. A call may need several turns; in its last turn it gets its
-- answer.
structure Pool (κ : Type) (ι : Type) (ρ : ι → Type) (ε α σ : Type) where
  shared   : σ
  programs : κ → Program ι ρ ε α

namespace Pool

variable {κ ι : Type} {ρ : ι → Type} {ε ε' α β σ ω : Type}

section

variable (perform : κ → (c : ι) → σ → ω → Option (σ × Option (ρ c)))

-- The environment has a say in how a call goes on.
def step [DecidableEq κ] (s : Pool κ ι ρ ε α σ) (turn : κ × ω) : Option (Pool κ ι ρ ε α σ) :=
  match s.programs turn.1 with
  | .call c next =>
    match perform turn.1 c s.shared turn.2 with
    | none                  => none
    | some (shared, none)   => some { s with shared }
    | some (shared, some r) => some { shared, programs := Function.update s.programs turn.1 (next r) }
  | .ret _ | .throw _ => none

theorem step_cases {perform : κ → (c : ι) → σ → ω → Option (σ × Option (ρ c))} [DecidableEq κ]
    {s s' : Pool κ ι ρ ε α σ} {turn : κ × ω} (e : s.step perform turn = some s') :
    ∃ c next r, s.programs turn.1 = .call c next ∧ perform turn.1 c s.shared turn.2 = some (s'.shared, r) := by
  rw [step] at e
  cases hc : s.programs turn.1 <;> simp only [hc] at e
  case ret | throw => cases e
  case call c next =>
    refine ⟨c, next, ?_⟩
    split at e
    case h_1 => cases e
    case h_2 shared hp =>
      cases e
      exact ⟨none, rfl, hp⟩
    case h_3 shared r hp =>
      cases e
      exact ⟨some r, rfl, hp⟩

-- The environment may change the shared state between the turns, too.
def stepWith [DecidableEq κ] (change : σ → η → Option σ) (s : Pool κ ι ρ ε α σ) :
    (κ × ω) ⊕ η → Option (Pool κ ι ρ ε α σ)
  | .inl turn => s.step perform turn
  | .inr e    => change s.shared e |>.map fun shared => { s with shared }

-- The turn meets a condition on the call, the shared state and the environment.
def Allows (P : κ → (c : ι) → σ → ω → Prop) (s : Pool κ ι ρ ε α σ) (turn : κ × ω) : Prop :=
  ∀ c next, s.programs turn.1 = .call c next → P turn.1 c s.shared turn.2

instance {P : κ → (c : ι) → σ → ω → Prop} [∀ i c s choice, Decidable (P i c s choice)] (s : Pool κ ι ρ ε α σ)
    (turn : κ × ω) : Decidable (Allows P s turn) :=
  match h : s.programs turn.1 with
  | .call c _ => decidable_of_iff (P turn.1 c s.shared turn.2) <| by
    refine ⟨fun hP c' next h' => ?_, fun hP => hP c _ h⟩
    cases h.symm.trans h'
    exact hP
  | .ret _ | .throw _ => isTrue fun _ _ h' => by cases h.symm.trans h'

-- Only the turns have to meet the condition.
def AllowsWith (P : κ → (c : ι) → σ → ω → Prop) (s : Pool κ ι ρ ε α σ) : (κ × ω) ⊕ η → Prop
  | .inl turn => Allows P s turn
  | .inr _    => True

instance {P : κ → (c : ι) → σ → ω → Prop} [∀ i c s choice, Decidable (P i c s choice)] (s : Pool κ ι ρ ε α σ) :
    (input : (κ × ω) ⊕ η) → Decidable (AllowsWith P s input)
  | .inl turn => inferInstanceAs <| Decidable (Allows P s turn)
  | .inr _    => isTrue trivial

end

section Start

variable [DecidableEq κ] (s : Pool κ ι ρ ε α σ)

def start (i : κ) (p : Program ι ρ ε α) : Pool κ ι ρ ε α σ :=
  { s with programs := Function.update s.programs i p }

-- The pool as if the programs that are still to be started had been waiting for their first turns all the time.
def foretell (started : κ → Bool) (programs : κ → Program ι ρ ε α) : Pool κ ι ρ ε α σ :=
  { s with programs := fun i => if started i then s.programs i else programs i }

variable {s} {s' : Pool κ ι ρ ε α σ} {perform : κ → (c : ι) → σ → ω → Option (σ × Option (ρ c))} {turn : κ × ω}
  {started : κ → Bool} {programs : κ → Program ι ρ ε α}

theorem foretell_start {i : κ} (h : ¬started i) :
    (s.start i <| programs i).foretell (Function.update started i true) programs = s.foretell started programs := by
  simp only [foretell, start]
  congr 1
  funext j
  by_cases hj : j = i
  case pos => simp [hj, h]
  case neg => simp [hj]

theorem foretell_step (h : started turn.1) (e : s.step perform turn = some s') :
    (s.foretell started programs).step perform turn = some (s'.foretell started programs) := by
  simp only [step, foretell, h, if_true] at e ⊢
  cases hc : s.programs turn.1 <;> simp only [hc] at e ⊢
  case ret | throw => cases e
  case call c next =>
    split at e
    case h_1 => cases e
    case h_2 => cases e; rfl
    case h_3 shared r hp =>
      cases e
      congr 2
      funext j
      by_cases hj : j = turn.1
      case pos => simp [hj, h]
      case neg => simp [hj]

end Start

-- An invariant of the shared state, what a program relies on while others take their turns, and what may
-- happen while a call of the program is going on.
structure Protocol (κ ι σ : Type) where
  Inv        : σ → Prop
  Rely       : κ → σ → σ → Prop
  Wait       : κ → ι → σ → σ → Prop
  refl       : ∀ i s, Rely i s s
  trans      : ∀ {i s₁ s₂ s₃}, Rely i s₁ s₂ → Rely i s₂ s₃ → Rely i s₁ s₃
  wait_rely  : ∀ {i c s₁ s₂}, Rely i s₁ s₂ → Wait i c s₁ s₂
  wait_trans : ∀ {i c s₁ s₂ s₃}, Wait i c s₁ s₂ → Wait i c s₂ s₃ → Wait i c s₁ s₃

namespace Protocol

variable (protocol : Protocol κ ι σ) (perform : κ → (c : ι) → σ → ω → Option (σ × Option (ρ c)))
  (P : κ → (c : ι) → σ → ω → Prop) (i : κ)

-- A turn keeps the invariant and what the other programs rely on.
structure Keeps (s s' : σ) : Prop where
  inv    : protocol.Inv s'
  others : ∀ j, j ≠ i → protocol.Rely j s s'

-- From a state on, all turns of a program keep the protocol, and its outcome meets a postcondition.
def Safe (Q : Except ε α → σ → Prop) : Program ι ρ ε α → σ → Prop
  | .ret a, s       => ∀ s₁, protocol.Rely i s s₁ → protocol.Inv s₁ → Q (.ok a) s₁
  | .throw e, s     => ∀ s₁, protocol.Rely i s s₁ → protocol.Inv s₁ → Q (.error e) s₁
  | .call c next, s => ∀ s₁, protocol.Wait i c s s₁ → protocol.Inv s₁ → ∀ choice s₂ r,
    P i c s₁ choice → perform i c s₁ choice = some (s₂, r) → protocol.Keeps i s₁ s₂ ∧
      match r with
      | none   => protocol.Wait i c s₁ s₂
      | some r => Safe Q (next r) s₂

variable {protocol perform P i} {Q : Except ε α → σ → Prop} {p : Program ι ρ ε α} {s s' : σ}

theorem Safe.mono (h : protocol.Safe perform P i Q p s) (hr : protocol.Rely i s s') :
    protocol.Safe perform P i Q p s' := by
  cases p
  case ret | throw => exact fun s₁ hs => h s₁ (protocol.trans hr hs)
  case call        => exact fun s₁ hs => h s₁ (protocol.wait_trans (protocol.wait_rely hr) hs)

theorem Safe.wait {c : ι} {next : ρ c → Program ι ρ ε α} (h : protocol.Safe perform P i Q (.call c next) s)
    (hw : protocol.Wait i c s s') : protocol.Safe perform P i Q (.call c next) s' :=
  fun s₁ hs => h s₁ (protocol.wait_trans hw hs)

theorem Safe.bind {f : α → Program ι ρ ε β} {R : Except ε β → σ → Prop} (hInv : protocol.Inv s)
    (h : protocol.Safe perform P i Q p s)
    (hok : ∀ a s, protocol.Inv s → Q (.ok a) s → protocol.Safe perform P i R (f a) s)
    (herror : ∀ e s, protocol.Inv s → Q (.error e) s → R (.error e) s) :
    protocol.Safe perform P i R (p >>= f) s := by
  show protocol.Safe perform P i R (p.bind f) s
  induction p generalizing s
  case ret a   => exact hok a s hInv <| h s (protocol.refl i s) hInv
  case throw e => exact fun s₁ hs hi => herror e s₁ hi <| h s₁ hs hi
  case call c next ih =>
    intro s₁ hs hi choice s₂ r hP hp
    have ⟨hk, hr⟩ := h s₁ hs hi choice s₂ r hP hp
    refine ⟨hk, ?_⟩
    cases r
    case none   => exact hr
    case some r => exact ih r hk.inv hr

theorem Safe.attempt {f : Except ε α → Program ι ρ ε' β} {R : Except ε' β → σ → Prop} (hInv : protocol.Inv s)
    (h : protocol.Safe perform P i Q p s)
    (hf : ∀ r s, protocol.Inv s → Q r s → protocol.Safe perform P i R (f r) s) :
    protocol.Safe perform P i R (p.attempt f) s := by
  induction p generalizing s
  case ret a   => exact hf _ s hInv <| h s (protocol.refl i s) hInv
  case throw e => exact hf _ s hInv <| h s (protocol.refl i s) hInv
  case call c next ih =>
    intro s₁ hs hi choice s₂ r hP hp
    have ⟨hk, hr⟩ := h s₁ hs hi choice s₂ r hP hp
    refine ⟨hk, ?_⟩
    cases r
    case none   => exact hr
    case some r => exact ih r hk.inv hr

theorem Safe.imp {R : Except ε α → σ → Prop} (h : protocol.Safe perform P i Q p s) (hQ : ∀ r s, Q r s → R r s) :
    protocol.Safe perform P i R p s := by
  induction p generalizing s
  case ret | throw => exact fun s₁ hs hi => hQ _ s₁ <| h s₁ hs hi
  case call c next ih =>
    intro s₁ hs hi choice s₂ r hP hp
    have ⟨hk, hr⟩ := h s₁ hs hi choice s₂ r hP hp
    refine ⟨hk, ?_⟩
    cases r
    case none   => exact hr
    case some r => exact ih r hr

-- A call is safe if it keeps the protocol whenever a stable condition holds. The rest of the program may use the
-- condition and what the answer is known to meet.
theorem Safe.call {c : ι} {next : ρ c → Program ι ρ ε α} (C : σ → Prop) (A : ρ c → σ → Prop) (hC : C s)
    (hstable : ∀ {s s'}, protocol.Wait i c s s' → C s → C s')
    (hturn : ∀ {s choice s' r}, protocol.Inv s → C s → P i c s choice → perform i c s choice = some (s', r) →
      protocol.Keeps i s s' ∧ protocol.Wait i c s s' ∧ ∀ a ∈ r, A a s')
    (hnext : ∀ {a s}, protocol.Inv s → C s → A a s → protocol.Safe perform P i Q (next a) s) :
    protocol.Safe perform P i Q (.call c next) s := by
  intro s₁ hw hi choice s₂ r hP hp
  have hC := hstable hw hC
  have ⟨hk, hw, ha⟩ := hturn hi hC hP hp
  refine ⟨hk, ?_⟩
  cases r
  case none   => exact hw
  case some r => exact hnext hk.inv (hstable hw hC) <| ha r rfl

-- A program is safe if all its calls keep the protocol, whenever they are made.
theorem Safe.of_meets {C : ι → Prop} {Q : Except ε α → Prop} (h : p.Meets C (fun _ _ => True) Q)
    (hcall : ∀ {c s choice s' r}, C c → protocol.Inv s → P i c s choice → perform i c s choice = some (s', r) →
      protocol.Keeps i s s' ∧ protocol.Wait i c s s') : protocol.Safe perform P i (fun r _ => Q r) p s := by
  induction p generalizing s
  case ret | throw => exact fun _ _ _ => h
  case call c next ih =>
    intro s₁ _ hi choice s₂ r hP hp
    have ⟨hk, hw⟩ := hcall h.1 hi hP hp
    refine ⟨hk, ?_⟩
    cases r
    case none   => exact hw
    case some r => exact ih r (h.2 r trivial)

-- A pool of programs that keep the protocol.
def Kept (protocol : Protocol κ ι σ) (perform : κ → (c : ι) → σ → ω → Option (σ × Option (ρ c)))
    (P : κ → (c : ι) → σ → ω → Prop) (Q : κ → Except ε α → σ → Prop) (s : Pool κ ι ρ ε α σ) : Prop :=
  protocol.Inv s.shared ∧ ∀ i, protocol.Safe perform P i (Q i) (s.programs i) s.shared

theorem Kept.step [DecidableEq κ] {s s' : Pool κ ι ρ ε α σ} {turn : κ × ω} {Q : κ → Except ε α → σ → Prop}
    (h : protocol.Kept perform P Q s) (hP : Allows P s turn) (e : s.step perform turn = some s') :
    protocol.Kept perform P Q s' := by
  have ⟨hInv, h⟩ := h
  have hi := h turn.1
  rw [Pool.step] at e
  cases hc : s.programs turn.1 <;> simp only [hc] at e hi
  case ret | throw => cases e
  case call c next =>
    have now := hi s.shared (protocol.wait_rely <| protocol.refl _ _) hInv
    split at e
    case h_1 => cases e
    case h_2 shared hp =>
      cases e
      have ⟨hk, hr⟩ := now _ _ _ (hP c next hc) hp
      refine ⟨hk.inv, fun j => ?_⟩
      by_cases hj : j = turn.1
      case pos =>
        subst hj
        simp only [hc]
        exact hi.wait hr
      case neg => exact (h j).mono <| hk.others j hj
    case h_3 shared r hp =>
      cases e
      have ⟨hk, hr⟩ := now _ _ _ (hP c next hc) hp
      refine ⟨hk.inv, fun j => ?_⟩
      by_cases hj : j = turn.1
      case pos =>
        subst hj
        simpa using hr
      case neg =>
        simp only [Function.update_of_ne hj]
        exact (h j).mono <| hk.others j hj

-- Programs that all keep the protocol keep its invariant.
theorem Safe.pool [DecidableEq κ] {s s' : Pool κ ι ρ ε α σ} {Q : κ → Except ε α → σ → Prop}
    (r : Machine.Run (step perform) (Allows P) s s') (hInv : protocol.Inv s.shared)
    (h : ∀ i, protocol.Safe perform P i (Q i) (s.programs i) s.shared) : protocol.Inv s'.shared :=
  r.invariant (protocol.Kept perform P Q) Kept.step ⟨hInv, h⟩ |>.1

-- So they do if the environment changes the shared state in between, as long as it keeps what they rely on.
theorem Safe.pool_with_allows [DecidableEq κ] {change : σ → η → Option σ} {s s' : Pool κ ι ρ ε α σ}
    {Q : κ → Except ε α → σ → Prop} (r : Machine.Run (stepWith perform change) (AllowsWith P) s s')
    (hchange : ∀ {s s' e}, protocol.Inv s → change s e = some s' → protocol.Inv s' ∧ ∀ i, protocol.Rely i s s')
    (hInv : protocol.Inv s.shared)
    (h : ∀ i, protocol.Safe perform P i (Q i) (s.programs i) s.shared) : protocol.Inv s'.shared := by
  refine r.invariant (protocol.Kept perform P Q) (fun {t input t'} hk hP e => ?_) ⟨hInv, h⟩ |>.1
  cases input
  case inl turn => exact hk.step hP e
  case inr change =>
    have ⟨shared, hs, he⟩ := Option.map_eq_some_iff.mp e
    subst he
    have ⟨hi, hr⟩ := hchange hk.1 hs
    exact ⟨hi, fun i => (hk.2 i).mono <| hr i⟩

theorem Safe.pool_with [DecidableEq κ] {change : σ → η → Option σ} {s s' : Pool κ ι ρ ε α σ}
    {Q : κ → Except ε α → σ → Prop} (r : Machine.Run (stepWith perform change) (fun _ _ => True) s s')
    (hchange : ∀ {s s' e}, protocol.Inv s → change s e = some s' → protocol.Inv s' ∧ ∀ i, protocol.Rely i s s')
    (hInv : protocol.Inv s.shared)
    (h : ∀ i, protocol.Safe perform (fun _ _ _ _ => True) i (Q i) (s.programs i) s.shared) : protocol.Inv s'.shared := by
  refine Safe.pool_with_allows (r.mono fun _ input _ => ?_) hchange hInv h
  cases input
  case inl => exact fun _ _ _ => trivial
  case inr => trivial

end Protocol

section Contract

variable {perform : κ → (c : ι) → σ → ω → Option (σ × Option (ρ c))} {P : κ → (c : ι) → σ → ω → Prop} {Inv : σ → Prop}
  {C : κ → ι → Prop} {A : (i : κ) → (c : ι) → ρ c → Prop}

-- Programs that rely on nothing but the answers to their calls.
def contract (Inv : σ → Prop) : Protocol κ ι σ where
  Inv            := Inv
  Rely _ _ _     := True
  Wait _ _ _ _   := True
  refl _ _       := trivial
  trans _ _      := trivial
  wait_rely _    := trivial
  wait_trans _ _ := trivial

theorem safe_of_meets {i : κ} {Q : Except ε α → Prop} {p : Program ι ρ ε α} {s : σ}
    (hperform : ∀ {c s choice s' r}, Inv s → P i c s choice → C i c → perform i c s choice = some (s', r) →
      Inv s' ∧ ∀ a ∈ r, A i c a)
    (h : p.Meets (C i) (A i) Q) : (contract Inv).Safe perform P i (fun r _ => Q r) p s := by
  induction p generalizing s
  case ret | throw    => exact fun _ _ _ => h
  case call c next ih =>
    intro s₁ _ hInv choice s₂ r hP hp
    have ⟨hInv', ha⟩ := hperform hInv hP h.1 hp
    refine ⟨⟨hInv', fun _ _ => trivial⟩, ?_⟩
    cases r
    case none   => trivial
    case some r => exact ih r <| h.2 r <| ha r rfl

-- If the environment keeps an invariant and answers as the contract says, then so do the programs.
theorem run_of_meets [DecidableEq κ] {s s' : Pool κ ι ρ ε α σ} {Q : κ → Except ε α → Prop}
    (hperform : ∀ {i c s choice s' r}, Inv s → P i c s choice → C i c → perform i c s choice = some (s', r) →
      Inv s' ∧ ∀ a ∈ r, A i c a)
    (r : Machine.Run (step perform) (Allows P) s s') (hInv : Inv s.shared)
    (h : ∀ i, (s.programs i).Meets (C i) (A i) (Q i)) : Inv s'.shared := by
  have hs (i : κ) : (contract Inv).Safe perform P i (fun r _ => Q i r) (s.programs i) s.shared :=
    safe_of_meets hperform (h i)
  exact Protocol.Safe.pool r hInv hs

end Contract

end Pool
