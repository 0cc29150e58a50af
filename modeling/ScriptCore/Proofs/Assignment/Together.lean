import ScriptCore.Proofs.Assignment.Apart
import ScriptCore.Proofs.Control.Structured

/-!
# Simultaneous assignments

An assignment of several values evaluates all values and finds all locations before it stores the
first value.  Values are kept in slots of their own until they are stored, from left to right, each
converted to the type of its location.

Code may as well find each location just before it stores there, if no operand of a location has an
effect or reads what one of the stores before it changes.

Main statements: `storesFrom_ends` (the stores) and `assign_ends` (all of it).
-/

namespace ScriptCore

/-! ### What is meant -/

/-- A location, with the type of what it holds. -/
structure Location where
  target : Target
  key : Option Value
  type : Ty

/-- Find the location of a place. -/
def Place.find (x : Context) (r : Nat) (p : Place) : Run Location := do
  let target ← locate x r p.container
  let key ← evalOption x r p.key
  return ⟨target, key, p.type⟩

/-- Find the locations of places, from left to right; the blank name has none. -/
def findEach (x : Context) (r : Nat) : List (Option Place) → Run (List (Option Location))
  | [] => pure []
  | none :: places => do return none :: (← findEach x r places)
  | some p :: places => do
    let location ← p.find x r
    return some location :: (← findEach x r places)

/-- A value of the type `ty` as it is stored as one of the type `target`: numbers are cut to its
width, references and values of interfaces must fit it, and nil stands for its zero value. -/
def TypeTable.converted (t : TypeTable) (x : Context) (ty target : Ty) (v : Value) :
    Except EvalError Value := do
  let v ← v.expect (t.category ty)
  match t.category target with
  | .func | .unknown => ensure x.types target (t.zero target) v
  | .bool | .string => return v
  | .int | .uint | .float | .complex => return narrowValue (t.kind target) v

/-- Store a value of the type `ty` at a location. -/
def Location.assign (t : TypeTable) (x : Context) (l : Location) (ty : Ty) (v : Value) :
    Run Unit := do
  l.target.store l.key (← Run.check (t.converted x ty l.type v))

/-- Store values with their types at locations, from left to right. -/
def assignLocations (t : TypeTable) (x : Context) :
    List (Option Location) → List (Ty × Value) → Run Unit
  | none :: locations, _ :: values => assignLocations t x locations values
  | some l :: locations, (ty, v) :: values => do
    l.assign t x ty v
    assignLocations t x locations values
  | _, _ => pure ()

/-- Evaluate expressions and keep their values in slots from `first` on. -/
def keepEach (x : Context) (r first : Nat) (es : List Code.Expr) : Run (List Value) := do
  let vs ← evalAll x r es
  storeEach r ((List.range' first es.length).map some) vs
  return vs

/-- **Simultaneous assignment** of values with their types to places: all values are evaluated, then
all locations are found, and only then are the values stored. -/
def assignTogether (t : TypeTable) (x : Context) (r first : Nat) (values : List (Code.Expr × Ty))
    (places : List (Option Place)) : Run Unit := do
  let vs ← keepEach x r first (values.map Prod.fst)
  let locations ← findEach x r places
  assignLocations t x locations ((values.map Prod.snd).zip vs)

/-! ### Code that stores one value after the other -/

namespace Place

/-- The value of an expression as it is stored in a place. -/
def accepted (t : TypeTable) (p : Place) (e : Code.Expr) : Code.Expr :=
  match t.category p.type with
  | .func | .unknown => .ensure p.type (t.zero p.type) e
  | .bool | .string => e
  | .int | .uint | .float | .complex => .narrow (t.kind p.type) e

/-- Store the value of the type `ty` that a slot of the current record keeps. -/
def fromSlot (t : TypeTable) (p : Place) (ty : Ty) (slot : Nat) : Code.Instr :=
  p.store (p.accepted t (Code.Typed.ofCategory (t.category ty) (.load 0 slot)).expr)

/-- The operands of the place have no effect and read none of the regions. -/
def avoids (regions : List Region) (p : Place) : Bool :=
  p.container.avoids regions && Code.avoids? regions p.key

/-- No operand of a place has an effect or reads one of the regions or what a store in a place
before it changes. -/
def independent : List Region → List (Option Place) → Bool
  | _, [] => true
  | regions, none :: places => independent regions places
  | regions, some p :: places =>
    p.avoids regions && independent (p.container.region :: regions) places

end Place

/-- Store the values that slots keep in places, from left to right. -/
def storesFrom (t : TypeTable) : List (Option Place) → List (Ty × Nat) → List Code.Instr
  | none :: places, _ :: slots => storesFrom t places slots
  | some p :: places, (ty, slot) :: slots => p.fromSlot t ty slot :: storesFrom t places slots
  | _, _ => []

/-- Instructions end as a run does. -/
def Result.EndsAs (a : Result) : EStateM.Result Failure Machine Unit → Prop
  | .ok _ m => a.outcome = .normal ∧ a.machine = m
  | .error f m => a.outcome = .failed f ∧ a.machine = m

variable {t : TypeTable} {x : Context} {r : Nat} {m m' m₀ : Machine} {regions : List Region}

/-- One instruction more. -/
theorem actAll_advance {i : Code.Instr} {is : List Code.Instr} {run : Run Unit}
    (hi : execute x r i m = .ok .advance m') (h : (actAll x r is m').EndsAs (run m')) :
    (actAll x r (i :: is) m).EndsAs (run m') := by
  rw [actAll, hi]
  dsimp only
  cases hrun : run m' with
  | ok u m₁ =>
      rw [hrun] at h
      exact h
  | error f m₁ =>
      rw [hrun] at h
      exact h

/-- An instruction that fails. -/
theorem actAll_failed {i : Code.Instr} {f : Failure} (hi : execute x r i m = .error f m')
    (is : List Code.Instr) : (actAll x r (i :: is) m).EndsAs (.error f m') := by
  rw [actAll, hi]
  exact ⟨rfl, rfl⟩

/-- A computation on values after another. -/
theorem Run.check_bind {α β : Type} {run : Run α} {e : Except EvalError α}
    (h : run m = Run.check e m) (f : α → Except EvalError β) :
    (run >>= fun a => Run.check (f a)) m = Run.check (e >>= f) m := by
  cases e with
  | ok a =>
      rw [Run.bind_result h]
      rfl
  | error f =>
      rw [Run.bind_failed h]
      rfl

/-- A value that a slot keeps, checked for a category. -/
theorem eval_slot (c : Category) (slot : Nat) (m : Machine) :
    eval x r (Code.Typed.ofCategory c (.load 0 slot)).expr m =
      Run.check (((m.record r).get slot).expect c) m := by
  have hload : eval x r (.load 0 slot) m = Run.check (.ok ((m.record r).get slot)) m :=
    eval_load rfl x slot
  have hexpect (c : Category) : eval x r (.expect c (.load 0 slot)) m =
      Run.check (((m.record r).get slot).expect c) m := by
    rw [eval]
    exact Run.check_bind hload fun v => v.expect c
  cases c with
  | func | unknown => exact hload
  | _ => exact hexpect _

/-- **A value that a slot keeps is converted as it is stored.** -/
theorem eval_accepted (p : Place) (ty : Ty) (slot : Nat) (m : Machine) :
    eval x r (p.accepted t (Code.Typed.ofCategory (t.category ty) (.load 0 slot)).expr) m =
      Run.check (t.converted x ty p.type ((m.record r).get slot)) m := by
  have hslot := eval_slot (x := x) (r := r) (t.category ty) slot m
  unfold Place.accepted TypeTable.converted
  cases t.category p.type with
  | func | unknown =>
      rw [eval]
      exact Run.check_bind hslot _
  | bool | string =>
      rw [hslot]
      cases ((m.record r).get slot).expect (t.category ty) <;> rfl
  | _ =>
      rw [eval]
      exact Run.check_bind hslot fun v => .ok (narrowValue (t.kind p.type) v)

/-- Where finding the location of a place leaves the machine as it is, storing from a slot finds it
and stores what the slot keeps. -/
theorem execute_fromSlot {p : Place} {l : Location} (h : p.find x r m = .ok l m) (ty : Ty)
    (slot : Nat) : execute x r (p.fromSlot t ty slot) m =
      (l.assign t x ty ((m.record r).get slot) >>= fun _ => pure Next.advance) m := by
  obtain ⟨target, m₁, htarget, h⟩ := run_bind_ok h
  obtain ⟨key, m₂, hkey, h⟩ := run_bind_ok h
  cases h
  have hvalue := eval_accepted (t := t) (x := x) (r := r) p ty slot m
  rw [Place.fromSlot, Place.store, execute, Run.bind_result htarget, Run.bind_result hkey]
  unfold Location.assign
  cases hw : t.converted x ty p.type ((m.record r).get slot) with
  | ok w =>
      rw [hw] at hvalue
      rw [Run.bind_result hvalue]
      rfl
  | error e =>
      rw [hw] at hvalue
      rw [Run.bind_failed hvalue]
      rfl

/-- A place is found on both machines or on neither. -/
theorem Place.find_avoids {p : Place} (h : m.Apart regions r m') (ha : p.avoids regions = true) :
    (p.find x r).SameOn m m' := by
  rw [Place.avoids, Bool.and_eq_true] at ha
  exact (locate_avoids h p.container ha.1).bind fun _ =>
    (evalOption_avoids h p.key ha.2).bind fun _ => .pure _

/-- Finding the locations of independent places leaves the machine as it is. -/
theorem findEach_still {places : List (Option Place)} {locations : List (Option Location)}
    (hindependent : Place.independent regions places = true)
    (hfind : findEach x r places m = .ok locations m') : m' = m := by
  induction places generalizing regions locations with
  | nil =>
      cases hfind
      rfl
  | cons place places ih =>
      cases place with
      | none =>
          obtain ⟨rest, m₁, hrest, hfind⟩ := run_bind_ok hfind
          cases hfind
          exact ih hindependent hrest
      | some p =>
          rw [Place.independent, Bool.and_eq_true] at hindependent
          obtain ⟨l, m₁, hl, hfind⟩ := run_bind_ok hfind
          obtain ⟨rest, m₂, hrest, hfind⟩ := run_bind_ok hfind
          cases hfind
          obtain ⟨l', hl', -⟩ | ⟨e, he, -⟩ :=
            Place.find_avoids (x := x) (.refl regions r m) hindependent.1
          · rw [hl'] at hl
            cases hl
            exact ih hindependent.2 hrest
          · rw [he] at hl
            cases hl

/-- What is stored at a location that was found changes nothing but its region. -/
theorem Location.assign_apart {p : Place} {l : Location} {m₁ : Machine} {ty : Ty} {v : Value}
    {u : Unit} (hfind : p.find x r m₀ = .ok l m₁) (hm : m₀.Apart regions r m)
    (hd : m₀.Distinct r) (h : l.assign t x ty v m = .ok u m') :
    m.Apart [p.container.region] r m' := by
  obtain ⟨target, m₂, htarget, hfind⟩ := run_bind_ok hfind
  obtain ⟨key, m₃, -, hfind⟩ := run_bind_ok hfind
  cases hfind
  have hlies := (locate_lies p.container htarget).apart hm
  obtain ⟨w, m₄, hw, h⟩ := run_bind_ok h
  obtain rfl := Run.ok_still (Run.still_check _ _) hw
  exact Target.store_apart (hm.distinct hd) hlies h

/-- What slots of a record keep. -/
def Machine.keptIn (m : Machine) (r : Nat) (slots : List (Ty × Nat)) : List Value :=
  slots.map fun s => (m.record r).get s.2

/-- **Stores in independent places end as if all locations had been found before the first store.**
The stores before these have changed nothing but the regions. -/
theorem storesFrom_ends (hd : m₀.Distinct r) {places : List (Option Place)}
    {slots : List (Ty × Nat)} {locations : List (Option Location)}
    (hindependent : Place.independent regions places = true) (hm : m₀.Apart regions r m)
    (hslots : ∀ p, some p ∈ places → ∀ s ∈ slots, p.container.region ≠ .slot 0 s.2)
    (hfind : findEach x r places m₀ = .ok locations m₀) :
    (actAll x r (storesFrom t places slots) m).EndsAs
      (assignLocations t x locations ((slots.map Prod.fst).zip (m.keptIn r slots)) m) := by
  induction places generalizing regions m slots locations with
  | nil =>
      cases hfind
      exact ⟨rfl, rfl⟩
  | cons place places ih =>
      cases place with
      | none =>
          obtain ⟨rest, m₁, hrest, hfind⟩ := run_bind_ok hfind
          cases hfind
          cases slots with
          | nil => exact ⟨rfl, rfl⟩
          | cons s slots =>
              refine ih hindependent hm (fun p hp s hs => ?_) hrest
              exact hslots p (List.mem_cons_of_mem _ hp) s (List.mem_cons_of_mem _ hs)
      | some p =>
          rw [Place.independent, Bool.and_eq_true] at hindependent
          obtain ⟨l, m₁, hl, hfind⟩ := run_bind_ok hfind
          obtain ⟨l', hl₀, hlm⟩ | ⟨e, he, -⟩ := Place.find_avoids (x := x) hm hindependent.1
          case inr =>
            rw [he] at hl
            cases hl
          rw [hl₀] at hl
          cases hl
          obtain ⟨rest, m₂, hrest, hfind⟩ := run_bind_ok hfind
          cases hfind
          cases slots with
          | nil => exact ⟨rfl, rfl⟩
          | cons s slots =>
              obtain ⟨ty, slot⟩ := s
              have hrun := execute_fromSlot (t := t) hlm ty slot
              rw [storesFrom, Machine.keptIn, List.map_cons, List.map_cons, List.zip_cons_cons,
                assignLocations]
              cases hassign : l.assign t x ty ((m.record r).get slot) m with
              | error f m' =>
                  rw [Run.bind_failed hassign] at hrun ⊢
                  exact actAll_failed hrun _
              | ok u m' =>
                  rw [Run.bind_result hassign] at hrun ⊢
                  have hstep := Location.assign_apart hl₀ hm hd hassign
                  -- what the store changes is none of the slots
                  have hkept : slots.map (fun s => (m.record r).get s.2) = m'.keptIn r slots := by
                    refine List.map_congr_left fun s hs => ?_
                    have hregion := hslots p List.mem_cons_self s (List.mem_cons_of_mem _ hs)
                    have hslot : .slot 0 s.2 ∉ [p.container.region] := by
                      rw [List.mem_singleton]
                      exact hregion.symm
                    exact (hstep.slots 0 s.2 r hslot rfl).symm
                  rw [hkept]
                  refine actAll_advance hrun (ih hindependent.2 (hm.cons hstep) ?_ hrest)
                  intro q hq s hs
                  exact hslots q (List.mem_cons_of_mem _ hq) s (List.mem_cons_of_mem _ hs)

/-! ### Values that are kept -/

/-- There are as many values as expressions. -/
theorem evalAll_length {es : List Code.Expr} {vs : List Value} (h : evalAll x r es m = .ok vs m') :
    vs.length = es.length := by
  induction es generalizing vs m m' with
  | nil =>
      cases h
      rfl
  | cons e es ih =>
      obtain ⟨v, m₁, -, h⟩ := run_bind_ok h
      obtain ⟨rest, m₂, hrest, h⟩ := run_bind_ok h
      cases h
      rw [List.length_cons, List.length_cons, ih hrest]

/-- Storing in slots adds no record. -/
theorem storeEach_size {slots : List (Option Nat)} {vs : List Value} {u : Unit}
    (h : storeEach r slots vs m = .ok u m') : m'.records.size = m.records.size := by
  induction slots generalizing vs m with
  | nil =>
      cases h
      rfl
  | cons slot slots ih =>
      cases vs with
      | nil => cases slot <;> (cases h; rfl)
      | cons v vs =>
          cases slot with
          | none => exact ih h
          | some s =>
              have hstored : storeEach r slots vs (m.stored r s v) = .ok u m' := h
              rw [ih hstored, Machine.stored, Array.size_modify]

/-- Values are kept in consecutive slots; the slots before these keep what they kept. -/
theorem storeEach_kept {vs : List Value} {first : Nat} {u : Unit} (hr : r < m.records.size)
    (h : storeEach r ((List.range' first vs.length).map some) vs m = .ok u m') :
    (List.range' first vs.length).map (m'.record r).get = vs ∧
      ∀ s < first, (m'.record r).get s = (m.record r).get s := by
  induction vs generalizing first m with
  | nil =>
      cases h
      exact ⟨rfl, fun _ _ => rfl⟩
  | cons v vs ih =>
      have hsize : r < (m.stored r first v).records.size := by
        rw [Machine.stored, Array.size_modify]
        exact hr
      have hself : ((m.stored r first v).record r).get first = v := by
        have hrec : (m.stored r first v).record r = (m.record r).set first v :=
          Machine.store_record m hr first v
        rw [hrec, Record.get_set_self]
      obtain ⟨hkept, hbefore⟩ := ih hsize h
      refine ⟨?_, fun s hs => ?_⟩
      · rw [List.length_cons, List.range'_succ, List.map_cons, hkept,
          hbefore first (Nat.lt_succ_self first), hself]
      · rw [hbefore s (Nat.lt_succ_of_lt hs)]
        exact Machine.get_stored_ne fun _ => Nat.ne_of_lt hs

/-- Values that were kept are in their slots. -/
theorem keptIn_of_keepEach {first : Nat} {values : List (Code.Expr × Ty)} {vs : List Value}
    (hr : r < m'.records.size) (h : keepEach x r first (values.map Prod.fst) m = .ok vs m') :
    m'.keptIn r ((values.map Prod.snd).zipIdx first) = vs := by
  obtain ⟨ws, m₁, hvalues, h⟩ := run_bind_ok h
  obtain ⟨u, m₂, hstore, h⟩ := run_bind_ok h
  cases h
  rw [storeEach_size hstore] at hr
  have hlength : (values.map Prod.fst).length = vs.length := (evalAll_length hvalues).symm
  rw [hlength] at hstore
  calc m'.keptIn r ((values.map Prod.snd).zipIdx first)
      = (((values.map Prod.snd).zipIdx first).map Prod.snd).map (m'.record r).get := by
        rw [Machine.keptIn, List.map_map]
        rfl
    _ = (List.range' first vs.length).map (m'.record r).get := by
        rw [List.zipIdx_map_snd, List.length_map, ← hlength, List.length_map]
    _ = vs := (storeEach_kept hr hstore).1

/-- Code that keeps values in slots from `first` on. -/
def keeping (first : Nat) (values : List (Code.Expr × Ty)) : Code.Instr :=
  .setSlots ((values.zipIdx first).map fun s => (some s.2, s.1.1))

/-- Code that keeps values does so. -/
theorem execute_keeping (first : Nat) (values : List (Code.Expr × Ty)) :
    execute x r (keeping first values) =
      keepEach x r first (values.map Prod.fst) >>= fun _ => pure Next.advance := by
  have hvalues : ((values.zipIdx first).map fun s => (some s.2, s.1.1)).map Prod.snd =
      values.map Prod.fst := by
    rw [List.map_map, ← List.zipIdx_map_fst first values, List.map_map, List.zipIdx_map_fst]
    rfl
  have hslots : ((values.zipIdx first).map fun s => (some s.2, s.1.1)).map Prod.fst =
      (List.range' first values.length).map some := by
    rw [← List.zipIdx_map_snd, List.map_map, List.map_map]
    rfl
  rw [keeping, execute, hvalues, hslots, keepEach, List.length_map]
  simp only [bind_assoc, pure_bind]

/-- The state before the first store: the record is there, the records around it are different ones,
and all locations are found. -/
structure Ready (x : Context) (r : Nat) (places : List (Option Place)) (m₀ : Machine) : Prop where
  record : r < m₀.records.size
  distinct : m₀.Distinct r
  found : ∃ locations m₁, findEach x r places m₀ = .ok locations m₁

/-- **Code for an assignment of several values ends as the simultaneous assignment does**, if the
places are independent and none of them is a slot in which values are kept. -/
theorem assign_ends {first : Nat} {values : List (Code.Expr × Ty)} {places : List (Option Place)}
    (hindependent : Place.independent [] places = true)
    (hfresh : ∀ p, some p ∈ places → ∀ s, first ≤ s → p.container.region ≠ .slot 0 s)
    (hready : ∀ vs m₀, keepEach x r first (values.map Prod.fst) m = .ok vs m₀ →
      Ready x r places m₀) :
    (actAll x r (keeping first values ::
      storesFrom t places ((values.map Prod.snd).zipIdx first)) m).EndsAs
        (assignTogether t x r first values places m) := by
  have hkeep := congrFun (execute_keeping (x := x) (r := r) first values) m
  unfold assignTogether
  cases hvalues : keepEach x r first (values.map Prod.fst) m with
  | error f m₀ =>
      rw [Run.bind_failed hvalues] at hkeep ⊢
      exact actAll_failed hkeep _
  | ok vs m₀ =>
      obtain ⟨hr, hdistinct, locations, m₁, hfind⟩ := hready vs m₀ hvalues
      obtain rfl := findEach_still hindependent hfind
      have hslots : ∀ p, some p ∈ places → ∀ s ∈ (values.map Prod.snd).zipIdx first,
          p.container.region ≠ .slot 0 s.2 := by
        intro p hp s hs
        exact hfresh p hp s.2 (List.le_snd_of_mem_zipIdx hs)
      have hends := storesFrom_ends (t := t) hdistinct hindependent (.refl [] r _) hslots hfind
      rw [keptIn_of_keepEach hr hvalues, List.zipIdx_map_fst] at hends
      rw [Run.bind_result hvalues] at hkeep ⊢
      rw [Run.bind_result hfind]
      exact actAll_advance hkeep hends

end ScriptCore
