import ScriptCore.Proofs.Addressing.Fits
import ScriptCore.Proofs.Control.WellFormed

/-!
# Steps that agree

Two steps of the compilation agree from one world to another if from every state that fits the
first world they do the same, and what they leave fits the second world, with a result that has a
given property.  They change nothing but the types and the frame.  One of the two steps may check
addresses that the other does not check: a check that succeeds changes nothing.

Main statements: `Agrees.bind` and `Agrees.checked`.
-/

namespace ScriptCore

/-- What comes last decides, knowing what came before. -/
theorem Yields.bind_of {α β ε : Type} {P : α → Prop} {Q : β → Prop} {e : Except ε β}
    {f : β → Except ε α} (he : Yields Q e) (h : ∀ b, Q b → Yields P (f b)) :
    Yields P (e >>= f) := by
  cases e with
  | error e => exact .error e
  | ok b => exact h b (he b rfl)

/-- A weaker property. -/
theorem Yields.imp {α ε : Type} {P Q : α → Prop} {e : Except ε α} (he : Yields P e)
    (h : ∀ a, P a → Q a) : Yields Q e :=
  fun a ha => h a (he a ha)

/-- Two states differ in nothing but their types and frames. -/
def Compiler.Alike (c c' : Compiler) : Prop :=
  c' = { c with types := c'.types, frame := c'.frame }

namespace Compiler.Alike

variable {c c' c'' : Compiler}

/-- The same state. -/
protected theorem refl (c : Compiler) : c.Alike c := rfl

/-- One change of types and frames after another. -/
protected theorem trans (h : c.Alike c') (h' : c'.Alike c'') : c.Alike c'' := by
  unfold Alike at *
  rw [h', h]

end Compiler.Alike

namespace Compile

variable {α β : Type}

/-- Two steps do the same on a state and leave a state that fits a world and differs only in types
and frames, with a result that has a property. -/
structure AgreesOn (c : Compiler) (p q : Compile α) (w' : World) (Q : α → Prop) : Prop where
  same : p c = q c
  leaves : ∀ a c', p c = .ok (a, c') → c'.Fits w' ∧ Q a
  alike : ∀ a c', p c = .ok (a, c') → c.Alike c'

/-- Two steps agree on every state that fits a world. -/
def Agrees (w : World) (p q : Compile α) (w' : World) (Q : α → Prop) : Prop :=
  ∀ c, c.Fits w → AgreesOn c p q w' Q

namespace Agrees

variable {w v w' : World} {p q : Compile α} {Q R : α → Prop} {S : β → Prop}

/-- A result. -/
theorem pure {a : α} (h : Q a) : Agrees w (Pure.pure a) (Pure.pure a) w Q := by
  refine fun c hc => ⟨rfl, ?_, ?_⟩
  · rintro b c' ⟨⟩
    exact ⟨hc, h⟩
  · rintro b c' ⟨⟩
    exact .refl c

/-- A failure. -/
theorem fail (f : Fault) : Agrees w (Compile.fail f : Compile α) (Compile.fail f) w' Q := by
  refine fun c _ => ⟨rfl, ?_, ?_⟩
  · rintro b c' ⟨⟩
  · rintro b c' ⟨⟩

/-- One step after another. -/
theorem bind {p q : Compile β} {f g : β → Compile α} (h : Agrees w p q v S)
    (hf : ∀ b, S b → Agrees v (f b) (g b) w' Q) : Agrees w (p >>= f) (q >>= g) w' Q := by
  intro c hc
  obtain ⟨hsame, hleaves, halike⟩ := h c hc
  have hbind : ∀ (p : Compile β) (f : β → Compile α),
      (p >>= f) c = (p c).bind fun r => f r.1 r.2 := fun _ _ => rfl
  cases hp : p c with
  | error e =>
      exact ⟨by rw [hbind, hbind, ← hsame, hp]; rfl, by rw [hbind, hp]; rintro _ _ ⟨⟩,
        by rw [hbind, hp]; rintro _ _ ⟨⟩⟩
  | ok r =>
      obtain ⟨hfits, hS⟩ := hleaves r.1 r.2 hp
      obtain ⟨hnext, hlast, hthen⟩ := hf r.1 hS r.2 hfits
      exact ⟨by rw [hbind, hbind, ← hsame, hp]; exact hnext, by rw [hbind, hp]; exact hlast,
        by rw [hbind, hp]; exact fun a c' ha => (halike r.1 r.2 hp).trans (hthen a c' ha)⟩

/-- Nothing happens after a failure. -/
theorem fail_bind (f : Fault) {g g' : β → Compile α} :
    Agrees w (Compile.fail f >>= g) (Compile.fail f >>= g') w' Q :=
  .bind (v := w) (S := fun _ => False) (.fail f) fun _ h => h.elim

/-- A result that is changed. -/
theorem map {p q : Compile β} {f : β → α} (h : Agrees w p q w' S) (hf : ∀ b, S b → Q (f b)) :
    Agrees w (f <$> p) (f <$> q) w' Q := by
  rw [map_eq_pure_bind, map_eq_pure_bind]
  exact h.bind fun b hb => .pure (hf b hb)

/-- A weaker property. -/
theorem imp (h : Agrees w p q w' R) (hQ : ∀ a, R a → Q a) : Agrees w p q w' Q :=
  fun c hc => ⟨(h c hc).same, fun a c' ha =>
    ⟨((h c hc).leaves a c' ha).1, hQ a ((h c hc).leaves a c' ha).2⟩, (h c hc).alike⟩

/-- Errors that get a place. -/
theorem at' (span : Span) (h : Agrees w p q w' Q) :
    Agrees w (Compile.at' span p) (Compile.at' span q) w' Q := by
  intro c hc
  obtain ⟨hsame, hleaves, halike⟩ := h c hc
  have hok : ∀ a c', Compile.at' span p c = .ok (a, c') → p c = .ok (a, c') := by
    intro a c' ha
    unfold Compile.at' at ha
    cases hp : p c with
    | error e => rw [hp] at ha; cases ha
    | ok r => rw [hp] at ha; exact ha
  exact ⟨by simp only [Compile.at', hsame], fun a c' ha => hleaves a c' (hok a c' ha),
    fun a c' ha => halike a c' (hok a c' ha)⟩

/-- A choice. -/
theorem ite {P : Prop} [Decidable P] {p' q' : Compile α} (hp : P → Agrees w p q w' Q)
    (hp' : ¬P → Agrees w p' q' w' Q) :
    Agrees w (if P then p else p') (if P then q else q') w' Q := by
  by_cases h : P
  · rw [if_pos h, if_pos h]
    exact hp h
  · rw [if_neg h, if_neg h]
    exact hp' h

/-- A look at the state. -/
theorem get {f g : Compiler → Compile α} (h : ∀ c, c.Fits w → Agrees w (f c) (g c) w' Q) :
    Agrees w (MonadState.get >>= f) (MonadState.get >>= g) w' Q :=
  fun c hc => ⟨(h c hc c hc).same, (h c hc c hc).leaves, (h c hc c hc).alike⟩

/-- A look at the types. -/
theorem types {f g : TypeTable → Compile α} (h : ∀ t, Agrees w (f t) (g t) w' Q) :
    Agrees w (Compile.types >>= f) (Compile.types >>= g) w' Q :=
  fun c hc => ⟨(h c.types c hc).same, (h c.types c hc).leaves, (h c.types c hc).alike⟩

/-- A look at the state on one side. -/
theorem getRight {f : Compiler → Compile α} (h : ∀ c, c.Fits w → AgreesOn c p (f c) w' Q) :
    Agrees w p (MonadState.get >>= f) w' Q :=
  fun c hc => ⟨(h c hc).same, (h c hc).leaves, (h c hc).alike⟩

/-- A check that succeeds. -/
theorem require {b : Bool} {g : Compile α} (hb : b = true) (h : Agrees w p g w' Q) :
    Agrees w p (Checked.require b >>= fun _ => g) w' Q := by
  subst hb
  exact h

/-- A check at the end that succeeds. -/
theorem checked {b : α → Compiler → Bool} (h : Agrees w p q w' Q)
    (hb : ∀ c a c', c.Fits w → p c = .ok (a, c') → c'.Fits w' → Q a → b a c' = true) :
    Agrees w p (do
      let a ← q
      let c ← MonadState.get
      Checked.require (b a c)
      return a) w' Q := by
  intro c hc
  obtain ⟨hsame, hleaves, halike⟩ := h c hc
  refine ⟨?_, hleaves, halike⟩
  cases hp : p c with
  | error e =>
      change _ = (q c).bind _
      rw [← hsame, hp]
      rfl
  | ok r =>
      obtain ⟨a, c'⟩ := r
      obtain ⟨hfits, hQ⟩ := hleaves a c' hp
      change _ = (q c).bind _
      rw [← hsame, hp]
      change _ = (Checked.require (b a c') >>= fun _ => Pure.pure a : Compile α) c'
      rw [hb c a c' hc hp hfits hQ]
      rfl

/-- A rule that needs nothing but what it is given. -/
theorem check {e : Except Fault α} (h : Yields Q e) :
    Agrees w (Compile.check e) (Compile.check e) w Q := by
  cases e with
  | error f => exact fail f
  | ok a => exact pure (h a rfl)

/-- A rule that looks at the types. -/
theorem rule {f : TypeTable → Except Fault α} (h : ∀ t, Yields Q (f t)) :
    Agrees w (Compile.rule f) (Compile.rule f) w Q :=
  .types fun t => .check (h t)

/-- A change of types and frames that keeps the state in a world. -/
theorem modify {f : Compiler → Compiler} (h : ∀ c, c.Fits w → (f c).Fits w' ∧ c.Alike (f c)) :
    Agrees w (MonadState.modifyGet fun c => ((), f c) : Compile Unit)
      (MonadState.modifyGet fun c => ((), f c)) w' fun _ => True := by
  refine fun c hc => ⟨rfl, ?_, ?_⟩
  · rintro a c' ⟨⟩
    exact ⟨(h c hc).1, trivial⟩
  · rintro a c' ⟨⟩
    exact (h c hc).2

end Agrees

/-- The types do not matter for what a state fits. -/
theorem fits_types {c : Compiler} {w : World} (h : c.Fits w) (t : TypeTable) :
    ({ c with types := t } : Compiler).Fits w ∧ c.Alike { c with types := t } :=
  ⟨⟨h.frames, h.globals, h.names, h.methods, h.hosts⟩, rfl⟩

/-- A type is built. -/
theorem build_agrees {w : World} (b : Build TypeRef) :
    Agrees w (build b) (build b) w fun _ => True := by
  refine .types fun t => ?_
  cases b.run.run t with
  | mk r t' =>
      cases r with
      | error e => exact .fail _
      | ok r => exact .bind (.modify fun c hc => fits_types hc t') fun _ _ => .pure trivial

/-- A type is completed. -/
theorem complete_agrees {w : World} (b : Build Unit) :
    Agrees w (complete b) (complete b) w fun _ => True := by
  refine .types fun t => ?_
  cases b.run.run t with
  | mk r t' =>
      cases r with
      | error e => exact .fail _
      | ok r => exact .modify fun c hc => fits_types hc t'

end Compile

end ScriptCore
