/-!
# Runs

A machine is a step function; a run is a list of commands, and where it leads is the fold of the
step over them. What callers promise may depend on the state that a command meets, so it is stated
along the run. The laws below are all the inductions over runs that the theory needs: one step keeps
an invariant, hence so does a run; one step keeps two machines related, hence so does a run; one
step counts by one when something happens, hence a run counts how often it did.
-/

namespace GapText

variable {σ τ κ : Type}

/-- Every command of a run is allowed in the state that it meets. -/
def Along (step : σ → κ → σ) (Allowed : σ → κ → Prop) : σ → List κ → Prop
  | _, [] => True
  | s, c :: cs => Allowed s c ∧ Along step Allowed (step s c) cs

namespace Along

variable {step : σ → κ → σ} {Allowed : σ → κ → Prop}

instance decidable [∀ s c, Decidable (Allowed s c)] :
    ∀ (cs : List κ) (s : σ), Decidable (Along step Allowed s cs)
  | [], _ => .isTrue trivial
  | c :: cs, s =>
      have := decidable cs (step s c)
      inferInstanceAs (Decidable (Allowed s c ∧ Along step Allowed (step s c) cs))

theorem invariant {I : σ → Prop} (hstep : ∀ s c, I s → Allowed s c → I (step s c)) :
    ∀ (cs : List κ) {s : σ}, I s → Along step Allowed s cs → I (cs.foldl step s)
  | [], _, hs, _ => hs
  | c :: cs, s, hs, h => invariant hstep cs (hstep s c hs h.1) h.2

theorem simulation {R : σ → τ → Prop} {step' : τ → κ → τ}
    (hstep : ∀ s t c, R s t → Allowed s c → R (step s c) (step' t c)) :
    ∀ (cs : List κ) {s : σ} {t : τ}, R s t → Along step Allowed s cs →
      R (cs.foldl step s) (cs.foldl step' t)
  | [], _, _, hR, _ => hR
  | c :: cs, s, t, hR, h => simulation hstep cs (hstep s t c hR h.1) h.2

theorem and {P Q : σ → κ → Prop} :
    ∀ (cs : List κ) {s : σ}, Along step P s cs → Along step Q s cs →
      Along step (fun s c => P s c ∧ Q s c) s cs
  | [], _, _, _ => trivial
  | _ :: cs, _, hP, hQ => ⟨⟨hP.1, hQ.1⟩, and cs hP.2 hQ.2⟩

end Along

/-- How many commands of a run do something particular to the state that they meet. -/
def occurrences (step : σ → κ → σ) (happens : σ → κ → Bool) : σ → List κ → Nat
  | _, [] => 0
  | s, c :: cs => (if happens s c then 1 else 0) + occurrences step happens (step s c) cs

theorem foldl_eq_add_occurrences {step : σ → κ → σ} {happens : σ → κ → Bool} {f : σ → Int}
    (hstep : ∀ s c, f (step s c) = f s + if happens s c then 1 else 0) :
    ∀ (cs : List κ) (s : σ), f (cs.foldl step s) = f s + occurrences step happens s cs
  | [], s => (Int.add_zero (f s)).symm
  | c :: cs, s => by
      rw [List.foldl_cons, foldl_eq_add_occurrences hstep cs (step s c), hstep, occurrences]
      split <;> omega

end GapText
