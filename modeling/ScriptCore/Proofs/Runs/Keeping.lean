import ScriptCore.Proofs.Runs.Sound
import ScriptCore.Proofs.Runs.Watched

/-!
# Computations that keep a machine sound

A computation keeps a machine sound if it leaves a sound machine behind, whatever way it ends, and
if it does the same under every watch that agrees with the bounds and knows the bodies to which the
records will belong.  This is kept by sequences, and each primitive step has a rule.  What code
relies on besides a sound machine, such as the record in which it runs, lasts as machines go on.

Main statements: `Keeps.bind`, `Keeps.guard` (the watch admits what the bounds cover) and
`Leaves.enter` (a body runs in a record of its own).
-/

namespace ScriptCore

open Code

/-- A property of machines and owners of records that stays when the machine goes on. -/
structure Lasting where
  holds : List Body → Machine → Prop
  lasts : ∀ {owners m owners' m'}, Machine.Later owners m owners' m' →
    holds owners m → holds owners' m'

namespace Lasting

/-- Nothing is relied on. -/
def always : Lasting :=
  ⟨fun _ _ => True, fun _ h => h⟩

/-- Record `k + 1` belongs to a body and lies in records of given sizes. -/
def inside (B : Bounds) (owner : Body) (k : Nat) (sizes : List Nat) : Lasting where
  holds owners m := owners[k]? = some owner ∧ m.Chain B.globals (k + 1) sizes
  lasts hlater h := ⟨hlater.owner h.1, hlater.chain h.2⟩

end Lasting

/-- No variable that may be read is pending, and the watch knows the owners of the records. -/
structure Watch.Agrees (w : Watch) (B : Bounds) (owners : List Body) : Prop where
  pending : ∀ s < B.globals, w.pending s = false
  owners : ∀ all, w.owners = some all → owners <+: all

/-- A watch that knows the owners of some records knows those of fewer. -/
theorem Watch.Agrees.mono {w : Watch} {B : Bounds} {owners more : List Body}
    (h : w.Agrees B more) (hpast : owners <+: more) : w.Agrees B owners :=
  ⟨h.pending, fun all hall => hpast.trans (h.owners all hall)⟩

/-- From the machine `m` on the computation leaves a sound machine behind and gives results with the
property, and it does the same under a watch. -/
structure Leaves {α : Type} (B : Bounds) (owners : List Body) (m : Machine) (p : Run α)
    (q : Watch → Run α) (Q : α → Prop) : Prop where
  sound : ∃ owners', m.Later owners owners' (Run.after p m) ∧ Sound B owners' (Run.after p m) ∧
    ∀ w : Watch, w.Agrees B owners' → p m = q w m
  results : ∀ a m', p m = .ok a m' → Q a

/-- From every sound machine with the property the computation leaves a sound machine behind and
gives results with the property, and it does the same under a watch. -/
def Keeps {α : Type} (B : Bounds) (K : Lasting) (p : Run α) (q : Watch → Run α) (Q : α → Prop) :
    Prop :=
  ∀ owners m, Sound B owners m → K.holds owners m → Leaves B owners m p q Q

section
variable {α β : Type} {B : Bounds} {owners owners' : List Body} {m m' : Machine}
variable {p : Run α} {q : Watch → Run α} {Q Q' : α → Prop} {R : β → Prop}

/-- Both computations succeed. -/
theorem Leaves.both {a : α} (hp : p m = .ok a m')
    (hq : ∀ w : Watch, w.Agrees B owners' → q w m = .ok a m') (hlater : m.Later owners owners' m')
    (hs : Sound B owners' m') (ha : Q a) : Leaves B owners m p q Q := by
  have hafter : Run.after p m = m' := by rw [Run.after, hp]
  refine ⟨⟨owners', by rwa [hafter], by rwa [hafter], fun w hw => hp.trans (hq w hw).symm⟩,
    fun b m₁ hb => ?_⟩
  rw [hp] at hb
  cases hb
  exact ha

/-- A step that succeeds. -/
theorem Leaves.ok {a : α} (hp : p m = .ok a m') (hlater : m.Later owners owners' m')
    (hs : Sound B owners' m') (ha : Q a) : Leaves B owners m p (fun _ => p) Q :=
  .both hp (fun _ _ => hp) hlater hs ha

/-- A failure. -/
theorem Leaves.error {e : Failure} (hp : p m = .error e m')
    (hq : ∀ w : Watch, w.Agrees B owners' → q w m = .error e m')
    (hlater : m.Later owners owners' m') (hs : Sound B owners' m') : Leaves B owners m p q Q := by
  have hafter : Run.after p m = m' := by rw [Run.after, hp]
  refine ⟨⟨owners', by rwa [hafter], by rwa [hafter], fun w hw => hp.trans (hq w hw).symm⟩,
    fun b m₁ hb => ?_⟩
  rw [hp] at hb
  cases hb

/-- Results have a weaker property. -/
theorem Leaves.imp (h : Leaves B owners m p q Q) (hQ : ∀ a, Q a → Q' a) :
    Leaves B owners m p q Q' :=
  ⟨h.sound, fun a m' ha => hQ a (h.results a m' ha)⟩

/-- The other computation does the same as a third one. -/
theorem Leaves.congr {q' : Watch → Run α} (h : Leaves B owners m p q Q)
    (hq : ∀ owners' w, owners <+: owners' → w.Agrees B owners' → q' w m = q w m) :
    Leaves B owners m p q' Q := by
  obtain ⟨⟨owners', hlater, hs, hsame⟩, hresults⟩ := h
  exact ⟨⟨owners', hlater, hs, fun w hw =>
    (hsame w hw).trans (hq owners' w hlater.owners hw).symm⟩, hresults⟩

/-- A step that succeeds, and what comes then. -/
theorem Leaves.andThen {a : α} {f : α → Run β} {g : α → Watch → Run β}
    (hp : p m = .ok a m') (hq : ∀ w : Watch, w.Agrees B owners' → q w m = .ok a m')
    (hlater : m.Later owners owners' m') (h : Leaves B owners' m' (f a) (g a) R) :
    Leaves B owners m (p >>= f) (fun w => q w >>= fun a => g a w) R := by
  obtain ⟨⟨owners₁, hlater₁, hs₁, hsame⟩, hresults⟩ := h
  have hpf : (p >>= f) m = f a m' := by
    show EStateM.bind p f m = _
    rw [EStateM.bind, hp]
  have hqg : ∀ w : Watch, w.Agrees B owners' → (q w >>= fun a => g a w) m = g a w m' :=
    fun w hw => by
      show EStateM.bind _ _ m = _
      rw [EStateM.bind, hq w hw]
  have hafter : Run.after (p >>= f) m = Run.after (f a) m' := by rw [Run.after, hpf, Run.after]
  refine ⟨⟨owners₁, ?_, ?_, fun w hw => ?_⟩, fun b m₁ hb => ?_⟩
  · rw [hafter]
    exact hlater.trans hlater₁
  · rwa [hafter]
  · rw [hpf, hsame w hw, hqg w (hw.mono hlater₁.owners)]
  · exact hresults b m₁ (hpf ▸ hb)

/-- One computation after the other. -/
theorem Leaves.bind {f : α → Run β} {g : α → Watch → Run β} (h : Leaves B owners m p q Q)
    (hf : ∀ a owners' m', m.Later owners owners' m' → Sound B owners' m' → Q a →
      Leaves B owners' m' (f a) (g a) R) :
    Leaves B owners m (p >>= f) (fun w => q w >>= fun a => g a w) R := by
  obtain ⟨⟨owners₁, hlater, hs, hsame⟩, hresults⟩ := h
  cases hp : p m with
  | error e m₁ =>
      have hafter : Run.after p m = m₁ := by rw [Run.after, hp]
      rw [hafter] at hlater hs
      refine .error (e := e) ?_ (fun w hw => ?_) hlater hs
      · show EStateM.bind p f m = _
        rw [EStateM.bind, hp]
      · show EStateM.bind _ _ m = _
        rw [EStateM.bind, ← hsame w hw, hp]
  | ok a m₁ =>
      have hafter : Run.after p m = m₁ := by rw [Run.after, hp]
      rw [hafter] at hlater hs
      exact .andThen hp (fun w hw => (hsame w hw).symm.trans hp) hlater
        (hf a owners₁ m₁ hlater hs (hresults a m₁ hp))

end

namespace Keeps

section
variable {α β : Type} {B : Bounds} {K : Lasting} {p : Run α} {q : Watch → Run α}
variable {Q Q' : α → Prop} {R : β → Prop}

/-- A result. -/
theorem pure {a : α} (h : Q a) : Keeps B K (Pure.pure a) (fun _ => Pure.pure a) Q :=
  fun owners m hs _ => .ok rfl (.refl owners m) hs h

/-- A failure. -/
theorem throw (e : Failure) :
    Keeps B K (MonadExcept.throw e : Run α) (fun _ => MonadExcept.throw e) Q :=
  fun owners m hs _ => .error rfl (fun _ _ => rfl) (.refl owners m) hs

/-- An error of the program. -/
theorem fail (e : EvalError) : Keeps B K (Run.fail e : Run α) (fun _ => Run.fail e) Q :=
  .throw (.error e)

/-- One computation after the other. -/
theorem bind {f : α → Run β} {g : α → Watch → Run β} (h : Keeps B K p q Q)
    (hf : ∀ a, Q a → Keeps B K (f a) (g a) R) :
    Keeps B K (p >>= f) (fun w => q w >>= fun a => g a w) R :=
  fun owners m hs hk => (h owners m hs hk).bind fun a owners' m' hlater hs' ha =>
    hf a ha owners' m' hs' (K.lasts hlater hk)

/-- Results have a weaker property. -/
theorem imp (h : Keeps B K p q Q) (hQ : ∀ a, Q a → Q' a) : Keeps B K p q Q' :=
  fun owners m hs hk => (h owners m hs hk).imp hQ

/-- What relies on nothing may be used anywhere. -/
theorem anywhere (h : Keeps B .always p q Q) : Keeps B K p q Q :=
  fun owners m hs _ => h owners m hs trivial

/-- A choice. -/
theorem ite {c : Prop} [Decidable c] {p' : Run α} {q' : Watch → Run α} (h : Keeps B K p q Q)
    (h' : Keeps B K p' q' Q) :
    Keeps B K (if c then p else p') (fun w => if c then q w else q' w) Q := by
  split
  · exact h
  · exact h'

/-- A computation on values. -/
theorem check {e : Except EvalError α} (h : ∀ a, e = .ok a → Q a) :
    Keeps B K (Run.check e) (fun _ => Run.check e) Q := by
  cases e with
  | error e => exact .fail e
  | ok a => exact .pure (h a rfl)

/-- What is computed from the heap as it is. -/
theorem heap {f : Machine → Run α} {g : Machine → Watch → Run α}
    (h : ∀ m, m.heap.Only B.allowed → Keeps B K (f m) (g m) Q) :
    Keeps B K (get >>= f) (fun w => get >>= fun m => g m w) Q :=
  fun owners m hs hk =>
    .andThen rfl (fun _ _ => rfl) (.refl owners m) (h m hs.heap owners m hs hk)

/-- Printing. -/
theorem print (text : String) :
    Keeps B K (Run.print text) (fun _ => Run.print text) fun _ => True :=
  fun _ _ hs _ => .ok rfl (Sound.later_of_same rfl rfl) (hs.of_same rfl rfl hs.heap) trivial

/-- A computation on the heap. -/
theorem onHeap {f : Heap → α × Heap}
    (h : ∀ x, x.Only B.allowed → (f x).2.Only B.allowed ∧ Q (f x).1) :
    Keeps B K (Run.onHeap f) (fun _ => Run.onHeap f) Q :=
  fun _ m hs _ => .ok rfl (Sound.later_of_same rfl rfl)
    (hs.of_same rfl rfl (h m.heap hs.heap).1) (h m.heap hs.heap).2

end

section
variable {B : Bounds} {K : Lasting}

/-! ### Operations of the heap -/

/-- A new slice. -/
theorem newSlice {vs : List Value} (hvs : ∀ v ∈ vs, v.Only B.allowed) :
    Keeps B K (Run.newSlice vs) (fun _ => Run.newSlice vs) (·.Only B.allowed) :=
  onHeap fun _ hx => ⟨hx.sliceOf hvs, trivial⟩

/-- Trailing arguments. -/
theorem pack {vs : List Value} (hvs : ∀ v ∈ vs, v.Only B.allowed) :
    Keeps B K (Run.pack vs) (fun _ => Run.pack vs) (·.Only B.allowed) := by
  cases vs with
  | nil => exact .pure trivial
  | cons v vs => exact newSlice hvs

/-- A new slice of zeros. -/
theorem makeSlice {len cap : Int} {zero : Value} (hzero : zero.Only B.allowed) :
    Keeps B K (ScriptCore.makeSlice len cap zero) (fun _ => ScriptCore.makeSlice len cap zero)
      (·.Only B.allowed) := by
  unfold ScriptCore.makeSlice
  exact .ite (.fail _) (.ite (.fail _) (onHeap fun _ hx => ⟨hx.makeSlice hzero, trivial⟩))

/-- A slice that grows. -/
theorem appendTo {base : Value} {vs : List Value} (hvs : ∀ v ∈ vs, v.Only B.allowed) :
    Keeps B K (ScriptCore.appendTo base vs) (fun _ => ScriptCore.appendTo base vs)
      (·.Only B.allowed) := by
  unfold ScriptCore.appendTo
  split
  · exact onHeap fun _ hx => ⟨hx.append hvs, trivial⟩
  · exact newSlice hvs

/-- An element of a slice. -/
theorem setElem {s : Slice} {index : Int} {v : Value} (hv : v.Only B.allowed) :
    Keeps B K (Run.setElem s index v) (fun _ => Run.setElem s index v) fun _ => True :=
  .bind (Q := fun _ => True) (.check fun _ _ => trivial) fun _ _ =>
    onHeap fun _ hx => ⟨hx.setAt hv _ _, trivial⟩

/-- An entry of a map. -/
theorem insertEntry {ref : Nat} {key v : Value} (hv : v.Only B.allowed) :
    Keeps B K (Run.insertEntry ref key v) (fun _ => Run.insertEntry ref key v) fun _ => True :=
  .bind (Q := fun _ => True) (.check fun _ _ => trivial) fun _ _ =>
    onHeap fun _ hx => ⟨hx.insertKey hv _ _, trivial⟩

/-- Removal of a key. -/
theorem removeKey {container key : Value} :
    Keeps B K (ScriptCore.removeKey container key) (fun _ => ScriptCore.removeKey container key)
      fun vs => ∀ v ∈ vs, v.Only B.allowed := by
  have hentry : ∀ ref, Keeps B K (Run.removeEntry ref key) (fun _ => Run.removeEntry ref key)
      fun _ => True := fun ref =>
    .bind (Q := fun _ => True) (.check fun _ _ => trivial) fun _ _ =>
      onHeap fun _ hx => ⟨hx.eraseKey _ _, trivial⟩
  have hnone : ∀ v ∈ ([] : List Value), v.Only B.allowed := by simp
  cases container with
  | map ref => exact .bind (hentry ref) fun _ _ => .pure hnone
  | _ => exact .pure hnone

/-- Arguments with the last ones packed into one value. -/
theorem packFrom {position : Option Nat} {vs : List Value} (hvs : ∀ v ∈ vs, v.Only B.allowed) :
    Keeps B K (ScriptCore.packFrom position vs) (fun _ => ScriptCore.packFrom position vs)
      fun vs => ∀ v ∈ vs, v.Only B.allowed := by
  cases position with
  | none => exact .pure hvs
  | some n =>
      refine .bind (pack fun v hv => hvs v (List.mem_of_mem_drop hv)) fun rest hrest => .pure ?_
      intro v hv
      rcases List.mem_append.1 hv with hv | hv
      · exact hvs v (List.mem_of_mem_take hv)
      · exact (List.mem_singleton.1 hv) ▸ hrest

/-- Conversion of a value, which may make a new slice. -/
theorem convert {types : TypeTable} {ty : Ty} {v : Value} (hv : v.Only B.allowed) :
    let convert : Run Value := do
      let m ← get
      let (v, heap) ← Run.check (m.heap.convert types v ty)
      set { m with heap }
      return v
    Keeps B K convert (fun _ => convert) (·.Only B.allowed) := by
  intro convert owners m hs hk
  have hrun : convert m = (Run.check (m.heap.convert types v ty) >>= fun r => do
      set { m with heap := r.2 }
      return r.1 : Run Value) m := rfl
  cases hc : m.heap.convert types v ty with
  | error e =>
      rw [hc] at hrun
      exact .error hrun (fun _ _ => hrun) (.refl owners m) hs
  | ok r =>
      rw [hc] at hrun
      obtain ⟨hvalue, hheap⟩ := hs.heap.convert hv hc
      exact .ok hrun (Sound.later_of_same rfl rfl) (hs.of_same rfl rfl hheap) hvalue

end

/-! ### Slots -/

section
variable {B : Bounds} {K : Lasting}

/-- A slot that may be read. -/
theorem loadSlot {r slot : Nat} (h : r = Machine.globals → slot < B.globals) :
    Keeps B K (Run.loadSlot r slot) (fun _ => Run.loadSlot r slot) (·.Only B.allowed) :=
  fun owners m hs _ => .ok rfl (.refl owners m) hs (hs.get h)

/-- An allowed value may be stored in any slot. -/
theorem storeSlot {r slot : Nat} {v : Value} (hv : v.Only B.allowed) :
    Keeps B K (Run.storeSlot r slot v) (fun _ => Run.storeSlot r slot v) fun _ => True :=
  fun owners m hs _ => .ok rfl (Machine.later_stored owners m r slot v) (hs.store hv) trivial

/-- Allowed values may be stored in any slots. -/
theorem storeEach {r : Nat} {slots : List (Option Nat)} {vs : List Value}
    (hvs : ∀ v ∈ vs, v.Only B.allowed) :
    Keeps B K (ScriptCore.storeEach r slots vs) (fun _ => ScriptCore.storeEach r slots vs)
      fun _ => True := by
  induction slots generalizing vs with
  | nil => exact .pure trivial
  | cons slot slots ih =>
      cases vs with
      | nil => cases slot <;> exact .pure trivial
      | cons v vs =>
          have hrest := ih fun x hx => hvs x (List.mem_cons_of_mem v hx)
          cases slot with
          | none => exact hrest
          | some s => exact .bind (storeSlot (hvs v List.mem_cons_self)) fun _ _ => hrest

end

end Keeps

/-! ### Slots of the records around -/

/-- From record `k + 1` on, in records of given sizes, there is a slot so many levels out. -/
def Bounds.Covers (B : Bounds) (k : Nat) (sizes : List Nat) (a : Access) (depth slot : Nat) :
    Prop :=
  ∀ m : Machine, m.Chain B.globals (k + 1) sizes →
    B.room ≤ (m.record Machine.globals).slots.size →
    ∃ record, m.ancestor? (k + 1) depth = some record ∧
      slot < (m.record record).slots.size ∧
      (a = .read → record = Machine.globals → slot < B.globals)

/-- Slots within the sizes may be read and replaced. -/
theorem Bounds.covers_of_lt {B : Bounds} {k : Nat} {sizes : List Nat} {depth slot : Nat}
    (h : ∃ n, sizes[depth]? = some n ∧ slot < n) (a : Access) : B.Covers k sizes a depth slot := by
  obtain ⟨n, hn, hlt⟩ := h
  intro m hchain _
  obtain ⟨record, hrecord, hroom, hglobals⟩ := hchain.ancestor hn
  exact ⟨record, hrecord, Nat.lt_of_lt_of_le hlt hroom, fun _ hr => hglobals hr ▸ hlt⟩

namespace Keeps

variable {α : Type} {B : Bounds} {owner : Body} {k : Nat} {sizes : List Nat} {Q : α → Prop}

/-- **The watch admits what the bounds cover.** -/
theorem guard {a covered : Access} {depth slot : Nat}
    (hcovers : B.Covers k sizes covered depth slot) (ha : a = .read → covered = .read)
    {p : Run α} {q : Watch → Run α} (h : Keeps B (.inside B owner k sizes) p q Q) :
    Keeps B (.inside B owner k sizes) p
      (fun w => w.check a (k + 1) depth slot >>= fun _ => q w) Q := by
  intro owners m hs hk
  obtain ⟨record, hrecord, hslot, hread⟩ := hcovers m hk.2 hs.room
  refine (h owners m hs hk).congr fun _ w _ hw => ?_
  have hadmits : w.admits a m (k + 1) depth slot = true :=
    Watch.admits_of_ancestor hrecord hslot fun hr hglobals =>
      hw.pending slot (hread (ha hr) hglobals)
  show EStateM.bind _ _ m = _
  rw [EStateM.bind, Watch.check_of_admits hadmits]

/-- The watch admits several slots that the bounds cover. -/
theorem guardEach {depth : Nat} {slots : List (Option Nat)}
    (hcovers : ∀ slot, some slot ∈ slots → B.Covers k sizes .store depth slot)
    {p : Run α} {q : Watch → Run α} (h : Keeps B (.inside B owner k sizes) p q Q) :
    Keeps B (.inside B owner k sizes) p
      (fun w => w.checkEach (k + 1) depth slots >>= fun _ => q w) Q := by
  induction slots with
  | nil => exact h
  | cons slot slots ih =>
      have hrest := ih fun s hs => hcovers s (List.mem_cons_of_mem _ hs)
      cases slot with
      | none => exact hrest
      | some s =>
          simp only [Watch.checkEach, bind_assoc]
          exact .guard (hcovers s List.mem_cons_self) id hrest

/-- The record of a slot that the bounds cover is found. -/
theorem ancestor {a : Access} {depth slot : Nat} (hcovers : B.Covers k sizes a depth slot) :
    Keeps B (.inside B owner k sizes) (Run.ancestor (k + 1) depth)
      (fun _ => Run.ancestor (k + 1) depth)
      fun r => a = .read → r = Machine.globals → slot < B.globals := by
  intro owners m hs hk
  obtain ⟨record, hrecord, -, hread⟩ := hcovers m hk.2 hs.room
  have hfound := Run.ancestor_of_some hrecord
  exact .ok hfound (.refl owners m) hs hread

/-- The watch admits a record among those around. -/
theorem guardRecord {depth n : Nat} (hn : sizes[depth]? = some n) {p : Run α}
    {q : Watch → Run α} (h : Keeps B (.inside B owner k sizes) p q Q) :
    Keeps B (.inside B owner k sizes) p
      (fun w => w.checkRecord (k + 1) depth >>= fun _ => q w) Q := by
  intro owners m hs hk
  obtain ⟨record, hrecord, -⟩ := hk.2.ancestor hn
  refine (h owners m hs hk).congr fun _ w _ _ => ?_
  show EStateM.bind _ _ m = _
  rw [EStateM.bind, show w.checkRecord (k + 1) depth m = .ok () m from if_pos (hrecord ▸ rfl)]

/-- A record among those around is found. -/
theorem ancestorOf {depth n : Nat} (hn : sizes[depth]? = some n) :
    Keeps B (.inside B owner k sizes) (Run.ancestor (k + 1) depth)
      (fun _ => Run.ancestor (k + 1) depth) fun _ => True := by
  intro owners m hs hk
  obtain ⟨record, hrecord, -⟩ := hk.2.ancestor hn
  have hfound := Run.ancestor_of_some hrecord
  exact .ok hfound (.refl owners m) hs trivial

/-! ### Functions -/

/-- A function literal of the body that is running. -/
theorem newClosure {body : Body} {name : Name} (hbody : body.Within B.allowed sizes)
    (hliteral : .literal body ∈ owner.parts) :
    Keeps B (.inside B owner k sizes) (Run.newFunction (.closure body (k + 1)) name)
      (fun _ => Run.newFunction (.closure body (k + 1)) name) (·.Only B.allowed) := by
  intro owners m hs hk
  obtain ⟨hdefined, hlater⟩ := hs.define (f := .closure body (k + 1)) ⟨sizes, hk.2, hbody⟩ (by
    rintro _ _ ⟨⟩
    exact ⟨owner, hk.1, hliteral⟩)
  exact .ok rfl hlater hdefined (hs.fresh _ (Nat.le_refl _))

/-- A method with its receiver. -/
theorem newBound {K : Lasting} {method recv : Value} {name : Name}
    (hmethod : method.Only B.allowed) (hrecv : recv.Only B.allowed) :
    Keeps B K (Run.newFunction (.bound method recv) name)
      (fun _ => Run.newFunction (.bound method recv) name) (·.Only B.allowed) := by
  intro owners m hs _
  obtain ⟨hdefined, hlater⟩ := hs.define (f := .bound method recv) ⟨hmethod, hrecv⟩ (by
    rintro _ _ ⟨⟩)
  exact .ok rfl hlater hdefined (hs.fresh _ (Nat.le_refl _))

end Keeps

/-! ### Invocations -/

namespace Leaves

variable {α : Type} {B : Bounds} {owners : List Body} {m : Machine} {Q : α → Prop}

/-- The number of bodies being executed makes no difference. -/
theorem counted {limit : Option Nat} {p : Run α} {q : Watch → Run α} (hs : Sound B owners m)
    (h : Leaves B owners { m with depth := m.depth + 1 } p q Q) :
    Leaves B owners m (ScriptCore.counted limit p) (fun w => ScriptCore.counted limit (q w))
      Q := by
  obtain ⟨⟨owners', hlater, hs', hsame⟩, hresults⟩ := h
  have hinside : m.Later owners owners { m with depth := m.depth + 1 } :=
    Sound.later_of_same rfl rfl
  unfold Run.after at hlater hs'
  by_cases hl : limit.any (fun l => decide (l ≤ m.depth)) = true
  · have hrun : ∀ r : Run α, ScriptCore.counted limit r m =
        .error (.error (.callDepthExceeded (limit.getD 0))) m := fun r => by
      simp [ScriptCore.counted, hl]
    exact .error (hrun p) (fun w _ => hrun (q w)) (.refl owners m) hs
  · cases hp : p { m with depth := m.depth + 1 } with
    | ok a m' =>
        have hrun : ∀ r : Run α, r { m with depth := m.depth + 1 } = .ok a m' →
            ScriptCore.counted limit r m = .ok a { m' with depth := m'.depth - 1 } :=
          fun r hr => by simp [ScriptCore.counted, hl, onFreshStack_eq, hr]
        rw [hp] at hlater hs'
        exact .both (hrun p hp)
          (fun w hw => hrun (q w) ((hsame w hw).symm.trans hp))
          ((hinside.trans hlater).trans (Sound.later_of_same rfl rfl))
          (hs'.of_same rfl rfl hs'.heap) (hresults a m' hp)
    | error e m' =>
        have hrun : ∀ r : Run α, r { m with depth := m.depth + 1 } = .error e m' →
            ScriptCore.counted limit r m = .error e { m' with depth := m'.depth - 1 } :=
          fun r hr => by simp [ScriptCore.counted, hl, onFreshStack_eq, hr]
        rw [hp] at hlater hs'
        exact .error (hrun p hp) (fun w hw => hrun (q w) ((hsame w hw).symm.trans hp))
          ((hinside.trans hlater).trans (Sound.later_of_same rfl rfl))
          (hs'.of_same rfl rfl hs'.heap)

/-- **A body runs in a new record**, which belongs to it, inside the record in which its function
was made. -/
theorem enter {body : Body} {outer : Nat} {args : List Value} {run : Nat → Run α}
    {run' : Nat → Watch → Run α} {sizes : List Nat} (hs : Sound B owners m)
    (hchain : m.Chain B.globals outer sizes) (hstands : Stands B.tops owners outer body)
    (hargs : ∀ v ∈ args, v.Only B.allowed)
    (hrun : Keeps B (.inside B body owners.length (body.slots :: sizes))
      (run (owners.length + 1)) (run' (owners.length + 1)) Q) :
    Leaves B owners m (Run.newRecord body.slots (some outer) args >>= run)
      (fun w => Run.newRecord body.slots (some outer) args >>= fun r =>
        w.checkOwner r body >>= fun _ => run' r w) Q := by
  have hnew : Run.newRecord body.slots (some outer) args m =
      .ok (owners.length + 1) (m.invoked body outer args) := by
    rw [← hs.nested.size]
    rfl
  have hself : (owners ++ [body])[owners.length]? = some body := by
    rw [List.getElem?_append_right (Nat.le_refl _), Nat.sub_self]
    rfl
  refine .andThen hnew (fun _ _ => hnew) Machine.later_invoked ?_
  refine (hrun _ _ (hs.invoke hstands hargs) ⟨hself, hs.chain_invoked hchain⟩).congr
    fun owners' w howners' hw => ?_
  have hcheck : ∀ m', w.checkOwner (owners.length + 1) body m' = .ok () m' := fun m' => by
    refine Watch.checkOwner_of_getElem fun all hall => ?_
    obtain ⟨rest, rfl⟩ := howners'.trans (hw.owners all hall)
    rw [List.getElem?_append_left (by simp), hself]
  show EStateM.bind _ _ _ = _
  rw [EStateM.bind, hcheck]

/-- A function runs its body in a new record. -/
theorem invoke {limit : Option Nat} {body : Body} {outer : Nat} {args : List Value}
    {run : Nat → Run α} {run' : Nat → Watch → Run α} (hs : Sound B owners m)
    (hfunction : (Function.closure body outer).Keeps B m)
    (hstands : Stands B.tops owners outer body) (hargs : ∀ v ∈ args, v.Only B.allowed)
    (hrun : ∀ k sizes, body.Within B.allowed sizes →
      Keeps B (.inside B body k (body.slots :: sizes)) (run (k + 1)) (run' (k + 1)) Q) :
    Leaves B owners m
      (ScriptCore.counted limit (Run.newRecord body.slots (some outer) args >>= run))
      (fun w => ScriptCore.counted limit (Run.newRecord body.slots (some outer) args >>= fun r =>
        w.checkOwner r body >>= fun _ => run' r w)) Q := by
  obtain ⟨sizes, hchain, hbody⟩ := hfunction
  have hinside : m.Later owners owners { m with depth := m.depth + 1 } :=
    Sound.later_of_same rfl rfl
  exact counted hs (enter (hs.of_same rfl rfl hs.heap) (hinside.chain hchain) hstands hargs
    (hrun owners.length sizes hbody))

end Leaves

end ScriptCore
