import ScriptCore.Proofs.Assignment.Tables
import ScriptCore.Proofs.Control.Elaborate
import ScriptCore.Proofs.Dependencies.Views

/-!
# Compiling something twice

An operand that is compiled twice gives the same both times.  Compiling it the first time may build
types, and other operands that are compiled in between may take slots; neither makes a difference to
the second time.

Here a step of the compilation is run on two states that are alike: their tables are alike, and they
differ otherwise in nothing but the number of slots of bodies.  Where `exact` is set, the body that
is being compiled has as many slots in both; this is needed to compile the statements of a body,
since these take slots.  A step is stable if what it gives for one state it gives for the other, and
if it changes nothing but the types and, where `exact` is set, the body.

Main statements: `Compile.Stable.bind` and `Compile.Stable.inFrame`.
-/

namespace ScriptCore

/-- A body without the number of its slots. -/
def Frame.unsized (f : Frame) : Frame :=
  { f with slots := 0 }

namespace Compiler

/-- A state without its types and without the number of slots of bodies; where `exact` is set, the
current body keeps its number. -/
def bare (exact : Bool) (c : Compiler) : Compiler :=
  { c with
    types := .empty
    frame := if exact then c.frame else c.frame.unsized
    enclosing := c.enclosing.map Frame.unsized }

/-- The states differ in nothing but the number of slots of bodies and in what their tables hold. -/
structure Like (exact : Bool) (c c' : Compiler) : Prop where
  bare : c.bare exact = c'.bare exact
  types : c.types.Alike c'.types
  settled : c.types.Settled
  settled' : c'.types.Settled

/-- Nothing has changed but the types and, where `exact` is set, the body. -/
structure Kept (exact : Bool) (c d : Compiler) : Prop where
  rest : d = { c with types := d.types, frame := if exact then d.frame else c.frame }
  types : c.types.Alike d.types
  grows : c.types.Grows d.types

variable {exact : Bool} {c c' d e : Compiler}

namespace Like

/-- A state is like itself. -/
protected theorem refl (h : c.types.Settled) : c.Like exact c :=
  ⟨rfl, .refl _, h, h⟩

/-- The other way round. -/
protected theorem symm (h : c.Like exact c') : c'.Like exact c :=
  ⟨h.bare.symm, h.types.symm, h.settled', h.settled⟩

/-- One after the other. -/
protected theorem trans (h : c.Like exact c') (h' : c'.Like exact d) : c.Like exact d :=
  ⟨h.bare.trans h'.bare, h.types.trans h'.types, h.settled, h'.settled'⟩

/-- Parts of a state that say nothing about slots are equal. -/
theorem part {α : Type} (h : c.Like exact c') (f : Compiler → α)
    (hf : ∀ c, f (c.bare exact) = f c) : f c = f c' := by
  rw [← hf c, ← hf c', h.bare]

/-- Names of bodies are looked up without a look at their slots. -/
theorem localMeaning_unsized (depth : Nat) (name : Name) (frames : List Frame) :
    localMeaning depth name (frames.map Frame.unsized) = localMeaning depth name frames := by
  induction frames generalizing depth with
  | nil => rfl
  | cons f frames ih =>
      have hfind : f.unsized.find? name = f.find? name := rfl
      rw [List.map_cons, localMeaning, localMeaning, hfind, ih]

/-- Names have the same meaning. -/
theorem resolve (h : c.Like exact c') (name : Name) : c.resolve name = c'.resolve name := by
  refine h.part (fun c => c.resolve name) fun c => ?_
  have hlocal : localMeaning 0 name ((c.bare exact).frame :: (c.bare exact).enclosing) =
      localMeaning 0 name (c.frame :: c.enclosing) := by
    have hfind : (c.bare exact).frame.find? name = c.frame.find? name := by
      cases exact <;> rfl
    rw [localMeaning, localMeaning, hfind]
    simp only [Compiler.bare, localMeaning_unsized]
  have hdepth : (c.bare exact).globalsDepth = c.globalsDepth := by
    simp [globalsDepth, Compiler.bare]
  simp only [Compiler.resolve, hlocal, hdepth]
  rfl

/-- Methods are the same. -/
theorem method (h : c.Like exact c') (ty : Ty) (name : Name) :
    c.method? ty name = c'.method? ty name :=
  h.part (fun c => c.method? ty name) fun _ => rfl

/-- There are as many bodies around the current one. -/
theorem globalsDepth (h : c.Like exact c') : c.globalsDepth = c'.globalsDepth :=
  h.part Compiler.globalsDepth fun c => by simp [Compiler.globalsDepth, Compiler.bare]

/-- Where the number of slots matters, the body is the same. -/
theorem frame (h : c.Like true c') : c.frame = c'.frame :=
  h.part Compiler.frame fun _ => rfl

/-- Bodies around the current one are the same but for their slots. -/
theorem enclosing (h : c.Like exact c') :
    c.enclosing.map Frame.unsized = c'.enclosing.map Frame.unsized :=
  congrArg Compiler.enclosing h.bare

/-- The current body is the same but for its slots. -/
theorem unsized (h : c.Like exact c') : c.frame.unsized = c'.frame.unsized :=
  h.part (fun c => c.frame.unsized) fun c => by cases exact <;> rfl

/-- Both states with other types. -/
theorem withTypes (h : c.Like exact c') {t t' : TypeTable} (ht : t.Alike t') (hs : t.Settled)
    (hs' : t'.Settled) :
    Like exact { c with types := t } { c' with types := t' } :=
  ⟨h.bare, ht, hs, hs'⟩

/-- Both states with the same change of their bodies. -/
theorem withFrame (h : c.Like true c') (f : Frame) :
    Like true { c with frame := f } { c' with frame := f } :=
  ⟨congrArg (fun c : Compiler => { c with frame := f }) h.bare, h.types, h.settled, h.settled'⟩

end Like

namespace Kept

/-- Nothing has changed. -/
protected theorem refl (c : Compiler) : c.Kept exact c := by
  refine ⟨?_, .refl _, .refl _⟩
  cases exact <;> rfl

/-- One change after another. -/
protected theorem trans (h : c.Kept exact d) (h' : d.Kept exact e) : c.Kept exact e := by
  refine ⟨?_, h.types.trans h'.types, h.grows.trans h'.grows⟩
  rw [h'.rest, h.rest]
  cases exact <;> rfl

/-- What has changed nothing but the types leaves a state that is like the one before. -/
theorem like (h : c.Kept false d) (hs : c.types.Settled) (hd : d.types.Settled) :
    c.Like exact d := by
  refine ⟨?_, h.types, hs, hd⟩
  rw [h.rest]
  rfl

end Kept

end Compiler

namespace Compile

variable {α β : Type} {exact : Bool}

/-- A step gives for one of two states that are alike what it gives for the other. -/
def Stable (exact : Bool) (p : Compile α) : Prop :=
  ∀ c c' a d, c.Like exact c' → p c = .ok (a, d) →
    c.Kept exact d ∧ ∃ d', p c' = .ok (a, d') ∧ d.Like exact d'

namespace Stable

/-- A result. -/
protected theorem pure (a : α) : Stable exact (Pure.pure a) := by
  rintro c c' _ _ hlike ⟨⟩
  exact ⟨.refl c, c', rfl, hlike⟩

/-- A failure. -/
protected theorem fail (f : Fault) : Stable exact (Compile.fail f : Compile α) := by
  intro c c' a d _ h
  cases h

/-- One step after another. -/
protected theorem bind {p : Compile α} {f : α → Compile β} (hp : Stable exact p)
    (hf : ∀ a, Stable exact (f a)) : Stable exact (p >>= f) := by
  intro c c' b e hlike h
  have hbind (s : Compiler) : (p >>= f) s = (p s).bind fun r => f r.1 r.2 := rfl
  rw [hbind] at h
  cases hstep : p c with
  | error fault =>
      rw [hstep] at h
      cases h
  | ok r =>
      obtain ⟨a, d⟩ := r
      rw [hstep] at h
      obtain ⟨hkept, d', hstep', hlike'⟩ := hp c c' a d hlike hstep
      obtain ⟨hkept', e', hnext, hlast⟩ := hf a d d' b e hlike' h
      refine ⟨hkept.trans hkept', e', ?_, hlast⟩
      rw [hbind, hstep']
      exact hnext

/-- Nothing happens after a failure. -/
theorem fail_bind (f : Fault) (g : β → Compile α) :
    Stable exact ((Compile.fail f : Compile β) >>= g) :=
  fun _ _ _ _ _ h => nomatch h

/-- A result that is changed. -/
protected theorem map {p : Compile α} (f : α → β) (h : Stable exact p) :
    Stable exact (f <$> p) := by
  rw [map_eq_pure_bind]
  exact h.bind fun a => .pure (f a)

/-- A choice. -/
protected theorem ite {P : Prop} [Decidable P] {p q : Compile α} (hp : Stable exact p)
    (hq : Stable exact q) : Stable exact (if P then p else q) := by
  by_cases h : P
  · rwa [if_pos h]
  · rwa [if_neg h]

/-- Errors that get a place. -/
protected theorem at' {p : Compile α} (span : Span) (h : Stable exact p) :
    Stable exact (Compile.at' span p) := by
  intro c c' a d hlike hok
  unfold Compile.at' at hok ⊢
  cases hstep : p c with
  | error e =>
      rw [hstep] at hok
      cases hok
  | ok r =>
      rw [hstep] at hok
      cases hok
      obtain ⟨hkept, d', hstep', hlike'⟩ := h c c' a d hlike hstep
      exact ⟨hkept, d', by rw [hstep'], hlike'⟩

/-- A rule that needs nothing but what it is given. -/
protected theorem check (e : Except Fault α) : Stable exact (Compile.check e) := by
  cases e with
  | error f => exact .fail f
  | ok a => exact .pure a

/-- A look at the state. -/
protected theorem get {f : Compiler → Compile α}
    (hsame : ∀ c c', c.Like exact c' → f c = f c') (h : ∀ c, Stable exact (f c)) :
    Stable exact (MonadState.get >>= f) := by
  intro c c' a d hlike hok
  obtain ⟨hkept, d', hstep', hlike'⟩ := h c c c' a d hlike hok
  refine ⟨hkept, d', ?_, hlike'⟩
  change f c' c' = _
  rw [← hsame c c' hlike]
  exact hstep'

/-- A look at the types. -/
protected theorem types {f : TypeTable → Compile α} (hsame : ∀ t t', t.Alike t' → f t = f t')
    (h : ∀ t, Stable exact (f t)) : Stable exact (Compile.types >>= f) := by
  intro c c' a d hlike hok
  obtain ⟨hkept, d', hstep', hlike'⟩ := h c.types c c' a d hlike hok
  refine ⟨hkept, d', ?_, hlike'⟩
  change f c'.types c' = _
  rw [← hsame _ _ hlike.types]
  exact hstep'

/-- A rule that is the same for tables that are alike. -/
protected theorem rule {f : TypeTable → Except Fault α} (hf : ∀ t t', t.Alike t' → f t = f t') :
    Stable exact (Compile.rule f) :=
  .types (fun t t' ht => by rw [hf t t' ht]) fun t => .check (f t)

/-- A type that is built. -/
protected theorem build {b : Build TypeRef} (hb : b.Stable) : Stable exact (Compile.build b) := by
  intro c c' a d hlike hok
  have hsame := hb.same c.types c'.types hlike.types
  obtain ⟨halike, hgrows, hsettled⟩ := hb.extended c.types hlike.settled
  obtain ⟨halike', -, hsettled'⟩ := hb.extended c'.types hlike.settled'
  rw [build_eq] at hok ⊢
  cases hstep : b.run.run c.types with
  | mk r t =>
      cases hstep' : b.run.run c'.types with
      | mk r' t' =>
          rw [hstep, hstep'] at hsame
          obtain rfl : r = r' := hsame
          rw [hstep] at hok halike hgrows hsettled
          rw [hstep'] at halike' hsettled'
          cases r with
          | error e => cases hok
          | ok r =>
              cases hok
              refine ⟨⟨by cases exact <;> rfl, halike, hgrows⟩, _, rfl, ?_⟩
              exact hlike.withTypes (halike.symm.trans (hlike.types.trans halike')) hsettled
                hsettled'

/-- A change of the body, where its slots count. -/
protected theorem onFrame (f : Frame → α × Frame) : Stable true (Compile.onFrame f) := by
  rintro c c' _ _ hlike ⟨⟩
  refine ⟨⟨rfl, .refl _, .refl _⟩, { c' with frame := (f c'.frame).2 }, ?_, ?_⟩
  · change Except.ok ((f c'.frame).1, _) = _
    rw [hlike.frame]
  · rw [hlike.frame]
    exact hlike.withFrame _

/-- A change of the body, where its slots count. -/
protected theorem updateFrame (f : Frame → Frame) : Stable true (Compile.updateFrame f) :=
  Stable.onFrame fun fr => ((), f fr)

/-- **A step in a new frame**: the body around it may have any number of slots. -/
protected theorem inFrame {content : Compile α} (nested : Bool) (h : Stable true content) :
    Stable exact (Compile.inFrame nested content) := by
  intro c c' a d hlike hok
  let inner (s : Compiler) : Compiler := { s with
    frame := .empty, enclosing := if nested then s.frame :: s.enclosing else [] }
  have hrun (s : Compiler) : Compile.inFrame nested content s =
      (content (inner s)).bind fun r =>
        .ok (r.1, { r.2 with frame := s.frame, enclosing := s.enclosing }) := rfl
  have hinner : (inner c).Like true (inner c') := by
    refine ⟨?_, hlike.types, hlike.settled, hlike.settled'⟩
    have hrest := congrArg (fun s : Compiler => { s with frame := .empty, enclosing := [] })
      hlike.bare
    have hframe := hlike.unsized
    have henclosing := hlike.enclosing
    simp only [inner, Compiler.bare, Compiler.mk.injEq, true_and] at hrest ⊢
    cases nested <;> simp_all
  rw [hrun] at hok ⊢
  cases hstep : content (inner c) with
  | error e =>
      rw [hstep] at hok
      cases hok
  | ok r =>
      obtain ⟨b, e⟩ := r
      rw [hstep] at hok
      cases hok
      obtain ⟨hkept, e', hstep', hlike'⟩ := h _ _ _ _ hinner hstep
      have hkept' := (h _ _ _ _ hinner.symm hstep').1
      have hback (s t : Compiler) (ht : (inner s).Kept true t) :
          { t with frame := s.frame, enclosing := s.enclosing } = { s with types := t.types } := by
        rw [ht.rest]
      refine ⟨⟨?_, hkept.types, hkept.grows⟩, _, by rw [hstep']; rfl, ?_⟩
      · rw [hback c e hkept]
        cases exact <;> rfl
      · rw [hback c e hkept, hback c' e' hkept']
        exact hlike.withTypes hlike'.types hlike'.settled hlike'.settled'

end Stable

end Compile

/-- Steps that add code and are stable with any code before them. -/
def Emit.Stable {α : Type} (p : Emit α) : Prop :=
  ∀ k, Compile.Stable true (p k)

namespace Emit.Stable

variable {α β : Type}

/-- A result. -/
protected theorem pure (a : α) : Emit.Stable (Pure.pure a) :=
  fun _ => .pure _

/-- One step after another. -/
protected theorem bind {p : Emit α} {f : α → Emit β} (hp : Emit.Stable p)
    (hf : ∀ a, Emit.Stable (f a)) : Emit.Stable (p >>= f) :=
  fun k => (hp k).bind fun r => hf r.1 r.2

/-- A step that adds no code. -/
protected theorem lift {p : Compile α} (h : Compile.Stable true p) :
    Emit.Stable (liftM p : Emit α) := by
  intro k
  rw [Compile.emit_lift]
  exact h.bind fun _ => .pure _

/-- A change of the code. -/
protected theorem modifyGet (f : Assembly → α × Assembly) :
    Emit.Stable (MonadState.modifyGet f) :=
  fun _ => .pure _

/-- Instructions that a step gives. -/
protected theorem all {p : Compile (List Code.Instr)} (h : Compile.Stable true p) :
    Emit.Stable (do Emit.all (← p)) :=
  (Emit.Stable.lift h).bind fun _ => .modifyGet _

/-- An instruction that a step gives. -/
protected theorem one {p : Compile Code.Instr} (h : Compile.Stable true p) :
    Emit.Stable (do Emit.one (← p)) :=
  (Emit.Stable.lift h).bind fun _ => .modifyGet _

/-- Errors that get a place. -/
protected theorem at' {p : Emit α} (span : Span) (h : Emit.Stable p) :
    Emit.Stable (Emit.at' span p) :=
  fun k => (h k).at' span

end Emit.Stable

end ScriptCore
