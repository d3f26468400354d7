import Mathlib.Data.List.Basic

/-! Guarded transition systems, their reachable states and the invariant rule.
`when` keeps the steps that satisfy a condition on the state before the step,
and a finite trace is replayed to reach a concrete state. -/
namespace TransitionSystem

structure System (σ ε : Type*) where
  start : σ → Prop
  enabled : σ → ε → Prop
  next : σ → ε → σ

variable {σ ε : Type*}

inductive Reachable (M : System σ ε) : σ → Prop where
  | start {s} : M.start s → Reachable M s
  | step {s e} : Reachable M s → M.enabled s e → Reachable M (M.next s e)

/-- The system whose every step meets `C` in the state it leaves. -/
def System.when (M : System σ ε) (C : σ → ε → Prop) : System σ ε where
  start := M.start
  enabled s e := M.enabled s e ∧ C s e
  next := M.next

instance (M : System σ ε) (C : σ → ε → Prop) (s : σ) (e : ε) [Decidable (M.enabled s e)]
    [Decidable (C s e)] : Decidable ((M.when C).enabled s e) :=
  inferInstanceAs (Decidable (M.enabled s e ∧ C s e))

/-- The runs that a monitor follows and whose events it allows. -/
def System.monitor {μ : Type*} (M : System σ ε) (m₀ : μ) (observe : μ → σ → ε → μ)
    (allow : μ → ε → Prop) : System (σ × μ) ε where
  start p := M.start p.1 ∧ p.2 = m₀
  enabled p e := M.enabled p.1 e ∧ allow p.2 e
  next p e := (M.next p.1 e, observe p.2 p.1 e)

/-- An invariant may use whatever is already known of reachable states. -/
theorem Reachable.invariant {M : System σ ε} {I : σ → Prop}
    (initial : ∀ s, M.start s → I s)
    (preserved : ∀ s e, Reachable M s → I s → M.enabled s e → I (M.next s e))
    {s} (h : Reachable M s) : I s := by
  induction h with
  | start h => exact initial _ h
  | step h he ih => exact preserved _ _ h ih he

theorem Reachable.of_when {M : System σ ε} {C : σ → ε → Prop} {s}
    (h : Reachable (M.when C) s) : Reachable M s := by
  induction h with
  | start h => exact .start h
  | step _ he ih => exact .step ih he.1

def runTrace (M : System σ ε) (s : σ) : List ε → σ
  | [] => s
  | e :: es => runTrace M (M.next s e) es

def ValidTrace (M : System σ ε) (s : σ) : List ε → Prop
  | [] => True
  | e :: es => M.enabled s e ∧ ValidTrace M (M.next s e) es

instance decidableValidTrace (M : System σ ε) [∀ s e, Decidable (M.enabled s e)] :
    ∀ s es, Decidable (ValidTrace M s es)
  | _, [] => isTrue trivial
  | s, e :: es =>
    match inferInstanceAs (Decidable (M.enabled s e)), decidableValidTrace M (M.next s e) es with
    | isTrue h, isTrue k => isTrue ⟨h, k⟩
    | isFalse h, _ => isFalse fun hk => h hk.1
    | _, isFalse k => isFalse fun hk => k hk.2

theorem Reachable.run {M : System σ ε} {es : List ε} :
    ∀ {s}, Reachable M s → ValidTrace M s es → Reachable M (runTrace M s es) := by
  induction es with
  | nil => intro s h _; exact h
  | cons e es ih => intro s h hv; exact ih (.step h hv.1) hv.2

/-- `I` holds of every state of a trace, and `J` of every step. -/
def Throughout (M : System σ ε) (I : σ → Prop) (J : σ → ε → Prop) (s : σ) : List ε → Prop
  | [] => I s
  | e :: es => I s ∧ J s e ∧ Throughout M I J (M.next s e) es

/-- If `C` is exactly what a step has to meet for `I` and `J` to stay, it is exactly what every
step of a trace has to meet. An invariant `K` of all steps may be used. -/
theorem throughout_iff_of_invariant {M : System σ ε} {I K : σ → Prop} {J C : σ → ε → Prop}
    (hK : ∀ s e, K s → M.enabled s e → K (M.next s e))
    (hstep : ∀ s e, K s → I s → M.enabled s e → (J s e ∧ I (M.next s e) ↔ C s e)) {es : List ε} :
    ∀ {s}, K s → I s → ValidTrace M s es →
      (Throughout M I J s es ↔ ValidTrace (M.when C) s es) := by
  induction es with
  | nil => exact fun _ hs _ => iff_of_true hs trivial
  | cons e es ih =>
    intro s hk hs hvalid
    have hk' := hK s e hk hvalid.1
    constructor
    · rintro ⟨-, hj, hrest⟩
      have hi : I (M.next s e) := by
        cases es with
        | nil => exact hrest
        | cons => exact hrest.1
      exact ⟨⟨hvalid.1, (hstep s e hk hs hvalid.1).mp ⟨hj, hi⟩⟩, (ih hk' hi hvalid.2).mp hrest⟩
    · rintro ⟨⟨-, hc⟩, hrest⟩
      obtain ⟨hj, hi⟩ := (hstep s e hk hs hvalid.1).mpr hc
      exact ⟨hs, hj, (ih hk' hi hvalid.2).mpr hrest⟩

theorem throughout_iff {M : System σ ε} {I : σ → Prop} {J C : σ → ε → Prop}
    (hstep : ∀ s e, I s → M.enabled s e → (J s e ∧ I (M.next s e) ↔ C s e)) {es : List ε} :
    ∀ {s}, I s → ValidTrace M s es → (Throughout M I J s es ↔ ValidTrace (M.when C) s es) :=
  throughout_iff_of_invariant (K := fun _ => True) (fun _ _ _ _ => trivial)
    (fun s e _ => hstep s e) trivial

/-- The answers of a list of calls on a deterministic object, and the state they leave. -/
def runAnswers {ω : Type*} (call : σ → ε → ω × σ) (s : σ) : List ε → List ω × σ
  | [] => ([], s)
  | e :: es =>
    let r := runAnswers call (call s e).2 es
    ((call s e).1 :: r.1, r.2)

/-- Two objects whose calls answer alike and keep a relation answer alike on every run. -/
theorem runAnswers_refines {τ ω : Type*} {f : σ → ε → ω × σ} {g : τ → ε → ω × τ}
    {R : σ → τ → Prop}
    (hcall : ∀ s t e, R s t → (f s e).1 = (g t e).1 ∧ R (f s e).2 (g t e).2) {es : List ε} :
    ∀ {s t}, R s t → (runAnswers f s es).1 = (runAnswers g t es).1 ∧
      R (runAnswers f s es).2 (runAnswers g t es).2 := by
  induction es with
  | nil => intro s t h; exact ⟨rfl, h⟩
  | cons e es ih =>
    intro s t h
    obtain ⟨ha, hr⟩ := hcall s t e h
    obtain ⟨has, hrs⟩ := ih hr
    constructor
    · simp only [runAnswers, ha, has]
    · exact hrs

end TransitionSystem
