import Mathlib
import QuantumCompiler.CompileError

/-!
# Answers that can fail

How a chain of steps that can fail succeeds: every step does.
-/
namespace QuantumCompiler.Outcome

variable {ε α β : Type}

theorem bind_eq_ok {x : Except ε α} {f : α → Except ε β} {b : β} :
    (x >>= f) = .ok b ↔ ∃ a, x = .ok a ∧ f a = .ok b := by
  cases x with
  | error e =>
    constructor
    · intro h; cases h
    · rintro ⟨a, h, -⟩; cases h
  | ok a =>
    constructor
    · intro h; exact ⟨a, rfl, h⟩
    · rintro ⟨a', h, hf⟩; cases h; exact hf

/-- A chain fails where its first step fails, or the rest does. -/
theorem bind_eq_error {x : Except ε α} {f : α → Except ε β} {e : ε} :
    (x >>= f) = .error e ↔ x = .error e ∨ ∃ a, x = .ok a ∧ f a = .error e := by
  cases x with
  | error e' =>
    change Except.error e' = _ ↔ _
    simp
  | ok a =>
    change f a = _ ↔ _
    simp

theorem map_eq_ok {x : Except ε α} {f : α → β} {b : β} :
    x.map f = .ok b ↔ ∃ a, x = .ok a ∧ f a = b := by
  cases x with
  | error e => simp [Except.map]
  | ok a => simp [Except.map]

/-- An answer behind a check is given where the check finds nothing. -/
theorem unless_eq_ok {p : Bool} {e : ε} {a b : α} :
    (if p = true then .error e else .ok a) = (.ok b : Except ε α) ↔ p = false ∧ a = b := by
  cases p <;> simp

/-- A list is accepted when every element is. -/
theorem forM_eq_ok {xs : List α} {f : α → Except ε Unit} :
    xs.forM f = .ok () ↔ ∀ x ∈ xs, f x = .ok () := by
  induction xs with
  | nil => simp [List.forM, pure, Except.pure]
  | cons x xs ih =>
    change (f x >>= fun _ => xs.forM f) = _ ↔ _
    rw [bind_eq_ok]
    constructor
    · rintro ⟨_, hx, hxs⟩ y hy
      rcases List.mem_cons.mp hy with rfl | hy
      · exact hx
      · exact ih.mp hxs y hy
    · intro h
      exact ⟨(), h x (by simp), ih.mpr fun y hy => h y (by simp [hy])⟩

/-- A list is refused for its first element that is. -/
theorem forM_eq_error {xs : List α} {f : α → Except ε Unit} {e : ε} :
    xs.forM f = .error e ↔
      ∃ a x b, xs = a ++ x :: b ∧ (∀ y ∈ a, f y = .ok ()) ∧ f x = .error e := by
  induction xs with
  | nil => simp [List.forM, pure, Except.pure]
  | cons x xs ih =>
    change (f x >>= fun _ => xs.forM f) = _ ↔ _
    rw [bind_eq_error, ih]
    constructor
    · rintro (hx | ⟨_, hx, a, y, b, rfl, ha, hy⟩)
      · exact ⟨[], x, xs, rfl, by simp, hx⟩
      · exact ⟨x :: a, y, b, rfl, List.forall_mem_cons.mpr ⟨hx, ha⟩, hy⟩
    · rintro ⟨a, y, b, hxs, ha, hy⟩
      cases a with
      | nil =>
        obtain ⟨rfl, rfl⟩ := List.cons.inj hxs
        exact .inl hy
      | cons z a =>
        obtain ⟨rfl, rfl⟩ := List.cons.inj hxs
        obtain ⟨hz, ha⟩ := List.forall_mem_cons.mp ha
        exact .inr ⟨(), hz, a, y, b, rfl, ha, hy⟩

/-- Steps that all succeed give the list of their values. -/
theorem mapM_eq_ok {xs : List α} {f : α → Except ε β} {g : α → β}
    (h : ∀ x ∈ xs, f x = .ok (g x)) : xs.mapM f = .ok (xs.map g) := by
  induction xs with
  | nil => rfl
  | cons x xs ih =>
    rw [List.mapM_cons, h x (by simp), ih fun y hy => h y (by simp [hy])]
    rfl

/-- What every step of a fold keeps holds of its result. -/
theorem foldlM_keeps {P : β → Prop} {f : β → α → Except ε β} {xs : List α}
    (hf : ∀ a ∈ xs, ∀ b c, P b → f b a = .ok c → P c) {b c : β} (hb : P b)
    (h : xs.foldlM f b = .ok c) : P c := by
  induction xs generalizing b with
  | nil => exact Except.ok.inj h ▸ hb
  | cons x xs ih =>
    rw [List.foldlM_cons, bind_eq_ok] at h
    obtain ⟨b', hx, h⟩ := h
    exact ih (fun a ha => hf a (by simp [ha])) (hf x (by simp) b b' hb hx) h

/-- Steps that add at most `b` each add that many times `b`. -/
theorem foldlM_le {f : β → α → Except ε β} {xs : List α} (size : β → Nat) {b : Nat}
    (hf : ∀ a ∈ xs, ∀ x y, f x a = .ok y → size y ≤ size x + b) {x y : β}
    (h : xs.foldlM f x = .ok y) : size y ≤ size x + xs.length * b := by
  induction xs generalizing x with
  | nil =>
    obtain rfl := Except.ok.inj h
    simp
  | cons a xs ih =>
    rw [List.foldlM_cons, bind_eq_ok] at h
    obtain ⟨z, hz, h⟩ := h
    have hfirst := hf a (by simp) x z hz
    have hrest := ih (fun a ha => hf a (by simp [ha])) h
    rw [List.length_cons, Nat.succ_mul]
    omega

/-- Steps that never fail come to an end. -/
theorem exists_foldlM {f : β → α → Except ε β} {xs : List α}
    (hf : ∀ b, ∀ a ∈ xs, ∃ c, f b a = .ok c) (b : β) : ∃ c, xs.foldlM f b = .ok c := by
  induction xs generalizing b with
  | nil => exact ⟨b, rfl⟩
  | cons x xs ih =>
    obtain ⟨c, hc⟩ := hf b x (by simp)
    obtain ⟨e, he⟩ := ih (fun b a ha => hf b a (by simp [ha])) c
    exact ⟨e, by rw [List.foldlM_cons, hc]; exact he⟩

theorem mapError_eq_ok {ε' : Type} {f : ε → ε'} {x : Except ε α} {a : α} :
    x.mapError f = .ok a ↔ x = .ok a := by
  cases x <;> simp [Except.mapError]

theorem toOption_eq_some {x : Except ε α} {a : α} : x.toOption = some a ↔ x = .ok a := by
  cases x <;> simp [Except.toOption]

theorem ofCircuit_eq_ok {R : Type} {x : Except CircuitError α} {a : α} :
    (Compile.ofCircuit x : Compile R α) = .ok a ↔ x = .ok a := mapError_eq_ok

/-! ## Errors of one kind -/

section FailsOnly

variable {R : Type} {P Q : CompileError R → Prop} {x : Compile R α}

/-- An answer whose error, if it is one, has a property. -/
def FailsOnly (P : CompileError R → Prop) (x : Compile R α) : Prop := ∀ e, x = .error e → P e

theorem failsOnly_ok (a : α) : FailsOnly P (.ok a : Compile R α) := nofun

theorem failsOnly_error {e : CompileError R} (h : P e) : FailsOnly P (.error e : Compile R α) :=
  fun _ he => Except.error.inj he ▸ h

theorem FailsOnly.mono (hx : FailsOnly P x) (h : ∀ e, P e → Q e) : FailsOnly Q x :=
  fun e he => h e (hx e he)

theorem FailsOnly.bind {f : α → Compile R β} (hx : FailsOnly P x)
    (hf : ∀ a, x = .ok a → FailsOnly P (f a)) : FailsOnly P (x >>= f) := by
  intro e h
  rcases bind_eq_error.mp h with h | ⟨a, ha, h⟩
  · exact hx e h
  · exact hf a ha e h

theorem failsOnly_foldlM {f : β → α → Compile R β} {xs : List α}
    (hf : ∀ a ∈ xs, ∀ b, FailsOnly P (f b a)) (b : β) : FailsOnly P (xs.foldlM f b) := by
  induction xs generalizing b with
  | nil => exact failsOnly_ok b
  | cons a xs ih =>
    rw [List.foldlM_cons]
    exact (hf a (by simp) b).bind fun c _ => ih (fun a ha => hf a (by simp [ha])) c

/-- The tolerance of a numeric decomposition was missed. -/
def Missed (e : CompileError R) : Prop :=
  ∃ gate error tolerance, e = .decompositionTolerance gate error tolerance

theorem missed_mk (gate : String) (error tolerance : R) :
    Missed (.decompositionTolerance gate error tolerance) := ⟨gate, error, tolerance, rfl⟩

theorem FailsOnly.blame (hx : FailsOnly Missed x) (gate : String) :
    FailsOnly Missed (x.mapError (CompileError.blame gate)) := by
  intro e h
  cases x with
  | ok a => cases h
  | error e' =>
    obtain ⟨_, error, tolerance, rfl⟩ := hx e' rfl
    exact Except.error.inj h ▸ missed_mk gate error tolerance

end FailsOnly

/-! ## Faults of the compiler -/

section Faultless

variable {R : Type} {x : Compile R α}

/-- An answer that does not blame the compiler: a value, or an error of the input. -/
def Faultless (x : Compile R α) : Prop := ∀ breach, x ≠ .error (.internal breach)

theorem faultless_ok (a : α) : Faultless (.ok a : Compile R α) := nofun

/-- The error blames the compiler. -/
def isInternal : CompileError R → Bool
  | .internal _ => true
  | _ => false

theorem faultless_error {e : CompileError R} (h : isInternal e = false) :
    Faultless (.error e : Compile R α) := by
  intro breach he
  obtain rfl := Except.error.inj he
  cases h

theorem isInternal_of_faultless {e : CompileError R} (h : Faultless (.error e : Compile R α)) :
    isInternal e = false := by
  cases e with
  | internal breach => exact absurd rfl (h breach)
  | _ => rfl

theorem FailsOnly.faultless {P : CompileError R → Prop} (hx : FailsOnly P x)
    (h : ∀ e, P e → isInternal e = false) : Faultless x := by
  intro breach hb
  cases h _ (hx _ hb)

theorem Faultless.failsOnly (hx : Faultless x) : FailsOnly (isInternal · = false) x :=
  fun _ he => isInternal_of_faultless (he ▸ hx)

theorem FailsOnly.faultless_of_missed (hx : FailsOnly Missed x) : Faultless x :=
  hx.faultless fun _ ⟨_, _, _, he⟩ => he ▸ rfl

theorem Faultless.bind {f : α → Compile R β} (hx : Faultless x)
    (hf : ∀ a, x = .ok a → Faultless (f a)) : Faultless (x >>= f) := by
  intro breach h
  rcases bind_eq_error.mp h with h | ⟨a, ha, h⟩
  · exact hx breach h
  · exact hf a ha breach h

/-- Another name in a missed tolerance puts no blame on the compiler. -/
theorem Faultless.blame (hx : Faultless x) (gate : String) :
    Faultless (x.mapError (CompileError.blame gate)) := by
  intro breach h
  cases x with
  | ok a => cases h
  | error e =>
    cases e with
    | internal b => exact hx b rfl
    | _ => cases h

/-- A faultless answer whose value, if there is one, has a property. -/
structure Yields (x : Compile R α) (P : α → Prop) : Prop where
  faultless : Faultless x
  value : ∀ a, x = .ok a → P a

theorem yields_ok {P : α → Prop} {a : α} (h : P a) : Yields (.ok a : Compile R α) P :=
  ⟨faultless_ok a, fun _ ha => Except.ok.inj ha ▸ h⟩

theorem yields_error {P : α → Prop} {e : CompileError R} (h : isInternal e = false) :
    Yields (.error e : Compile R α) P := by
  refine ⟨faultless_error h, fun a ha => ?_⟩
  cases ha

theorem yields_of_eq_ok {P : α → Prop} {a : α} (hx : x = .ok a) (h : P a) : Yields x P :=
  hx ▸ yields_ok h

theorem Yields.bind {P : α → Prop} {Q : β → Prop} {f : α → Compile R β} (hx : Yields x P)
    (hf : ∀ a, P a → Yields (f a) Q) : Yields (x >>= f) Q := by
  refine ⟨hx.faultless.bind fun a ha => (hf a (hx.value a ha)).faultless, fun b hb => ?_⟩
  obtain ⟨a, ha, hb⟩ := bind_eq_ok.mp hb
  exact (hf a (hx.value a ha)).value b hb

end Faultless

end QuantumCompiler.Outcome
