import Mathlib.Data.Finset.Card
import ScriptCore.Names.SymbolTable

/-!
# Interning is a stable bijection

A shard keeps its strings twice, as a list and as an index into the list, and the table counts the
strings of all shards besides.  The strings that a table knows, in the order in which they came,
determine all of it (`Knows`): a shard lists those with its hash and finds each where it stands
among them, and the count is the length of the whole.

Two facts carry the result.

1.  The order grows only at its end, so a string keeps its place in its shard, and its symbol with
    it (`symbolIn_later`).
2.  A place that was given out fits the bits that a symbol has for it (`Knows.idxOf_le`), so the
    symbol leads back to the shard and the place (`Knows.lookup_symbolIn`).

Main statement: `run_faithful`, how every sequence of calls on the initial table is answered.
-/

namespace ScriptCore

namespace Shard

/-- The shard holds these strings in this order and finds each where it stands. -/
structure Holds (sh : Shard) (strings : List String) : Prop where
  listed : sh.strings = strings.toArray
  found : ∀ s, sh.find? s = if s ∈ strings then some (strings.idxOf s) else none

theorem holds_empty : Shard.empty.Holds [] :=
  ⟨rfl, fun s => by simp [find?, empty]⟩

/-- A new string is found behind the others, and they are found where they were. -/
theorem Holds.push {sh : Shard} {strings : List String} {s : String} (h : sh.Holds strings)
    (hs : s ∉ strings) : (sh.push s).Holds (strings ++ [s]) := by
  refine ⟨by simp [Shard.push, h.listed], fun x => ?_⟩
  by_cases hx : x = s
  · subst hx
    simp [find?, Shard.push, h.listed, List.idxOf_append_of_notMem hs]
  · have hrest : (sh.push s).find? x = sh.find? x := by
      simp [find?, Shard.push, List.lookup_cons, beq_eq_false_iff_ne.2 hx]
    by_cases hmem : x ∈ strings
    · simp [hrest, h.found, hmem, List.idxOf_append_of_mem]
    · simp [hrest, h.found, hmem, hx]

end Shard

namespace SymbolTable

/-! ### What a table knows -/

/-- The part of some strings that belongs to one shard. -/
def inShard (strings : List String) (i : Fin shardCount) : List String :=
  strings.filter fun s => shardOf s = i

/-- The table knows these strings, which came in this order. -/
structure Knows (t : SymbolTable) (strings : List String) : Prop where
  nodup : strings.Nodup
  holds : ∀ i, (t.shard i).Holds (inShard strings i)
  room : ∀ i, (inShard strings i).length ≤ maxLocal + 1
  size : t.size = strings.length

/-- The symbol of one of some strings: its shard and its place there. -/
def symbolIn (strings : List String) (s : String) : Symbol :=
  .ofParts (shardOf s) ((inShard strings (shardOf s)).idxOf s)

variable {t : SymbolTable} {strings : List String} {s : String}

theorem mem_inShard {i : Fin shardCount} : s ∈ inShard strings i ↔ s ∈ strings ∧ shardOf s = i := by
  simp [inShard]

/-- A string at the end of all comes to the end of its shard. -/
theorem inShard_append (strings : List String) (s : String) (i : Fin shardCount) :
    inShard (strings ++ [s]) i =
      if i = shardOf s then inShard strings i ++ [s] else inShard strings i := by
  by_cases h : i = shardOf s
  · simp [inShard, h]
  · simp [inShard, h, Ne.symm h]

/-- A string of a shard stands at a place that a symbol has room for. -/
theorem Knows.idxOf_le (h : t.Knows strings) (hs : s ∈ strings) :
    (inShard strings (shardOf s)).idxOf s ≤ maxLocal := by
  have hlt := List.idxOf_lt_length_of_mem (mem_inShard.2 ⟨hs, rfl⟩)
  have hroom := h.room (shardOf s)
  omega

/-- A string is found exactly if it is known, and under its symbol. -/
theorem Knows.get?_eq (h : t.Knows strings) (s : String) :
    t.get? s = if s ∈ strings then some (symbolIn strings s) else none := by
  by_cases hs : s ∈ strings
  · simp [get?, (h.holds _).found, mem_inShard, hs, symbolIn]
  · simp [get?, (h.holds _).found, mem_inShard, hs]

theorem Knows.get?_eq_some_iff (h : t.Knows strings) {sym : Symbol} :
    t.get? s = some sym ↔ s ∈ strings ∧ symbolIn strings s = sym := by
  simp [h.get?_eq]

/-- The symbol of a known string leads back to it. -/
theorem Knows.lookup_symbolIn (h : t.Knows strings) (hs : s ∈ strings) :
    t.lookup (symbolIn strings s) = s := by
  have hplace := h.idxOf_le hs
  have hmem : s ∈ inShard strings (shardOf s) := mem_inShard.2 ⟨hs, rfl⟩
  simp [lookup, symbolIn, Symbol.shard_ofParts _ hplace, Symbol.index_ofParts _ hplace,
    (h.holds _).listed, List.getElem?_idxOf hmem]

/-- Strings that come later leave the symbols as they are. -/
theorem symbolIn_later {later : List String} (h : strings <+: later) (hs : s ∈ strings) :
    symbolIn later s = symbolIn strings s := by
  obtain ⟨new, rfl⟩ := h
  have hmem : s ∈ inShard strings (shardOf s) := mem_inShard.2 ⟨hs, rfl⟩
  rw [symbolIn, symbolIn, inShard, List.filter_append]
  exact congrArg _ (List.idxOf_append_of_mem hmem)

/-- The symbol of a string that has just come is the first free one of its shard. -/
theorem symbolIn_append (hs : s ∉ strings) :
    symbolIn (strings ++ [s]) s = .ofParts (shardOf s) (inShard strings (shardOf s)).length := by
  have hmem : s ∉ inShard strings (shardOf s) := fun h => hs (mem_inShard.1 h).1
  simp [symbolIn, inShard_append, List.idxOf_append_of_notMem hmem]

/-- A new string comes to a shard that has room. -/
theorem Knows.add (h : t.Knows strings) (hs : s ∉ strings)
    (hroom : (inShard strings (shardOf s)).length ≤ maxLocal) :
    (t.add s).Knows (strings ++ [s]) := by
  have hmem : s ∉ inShard strings (shardOf s) := fun hmem => hs (mem_inShard.1 hmem).1
  refine ⟨?_, fun i => ?_, fun i => ?_, ?_⟩
  · refine List.nodup_append.2 ⟨h.nodup, by simp, fun x hx y hy hxy => ?_⟩
    exact hs (List.mem_singleton.1 hy ▸ hxy ▸ hx)
  · rw [shard_add, inShard_append]
    split
    next hi => subst hi; exact (h.holds _).push hmem
    next => exact h.holds i
  · rw [inShard_append]
    split
    next hi => subst hi; simpa using hroom
    next => exact h.room i
  · simp [SymbolTable.add, h.size]

/-- **What interning can do**: a known string has its symbol, a new one is refused if its shard is
full, and else it is added. -/
theorem Knows.tryIntern_cases (h : t.Knows strings) (s : String) :
    (s ∈ strings ∧ t.tryIntern s = .ok (symbolIn strings s, t)) ∨
    (s ∉ strings ∧ (inShard strings (shardOf s)).length = maxLocal + 1 ∧
      t.tryIntern s = .error ⟨shardOf s, maxLocal + 1⟩) ∨
    (s ∉ strings ∧ (inShard strings (shardOf s)).length ≤ maxLocal ∧
      t.tryIntern s = .ok (symbolIn (strings ++ [s]) s, t.add s)) := by
  have hget := h.get?_eq s
  by_cases hs : s ∈ strings
  · rw [if_pos hs] at hget
    exact .inl ⟨hs, tryIntern_known hget⟩
  · rw [if_neg hs] at hget
    have hcount : (t.shard (shardOf s)).strings.size = (inShard strings (shardOf s)).length := by
      simp [(h.holds _).listed]
    have hroom := h.room (shardOf s)
    by_cases hfull : maxLocal < (inShard strings (shardOf s)).length
    · have hlength : (inShard strings (shardOf s)).length = maxLocal + 1 := by omega
      exact .inr (.inl ⟨hs, hlength, by simp [tryIntern, hget, hcount, hlength]⟩)
    · exact .inr (.inr ⟨hs, by omega, by simp [tryIntern, hget, hcount, hfull, symbolIn_append hs]⟩)

/-! ### The initial table -/

/-- The empty string is the first of its shard. -/
theorem knows_blank : blank.Knows [""] := by
  have hzero : (shardOf "").val = 0 := rfl
  have hother (i : Fin shardCount) (hi : i ≠ shardOf "") : inShard [""] i = [] := by
    simp [inShard, Ne.symm hi]
  have hown : inShard [""] (shardOf "") = [""] := by simp [inShard]
  refine ⟨by simp, fun i => ?_, fun i => ?_, rfl⟩
  · by_cases hi : i = shardOf ""
    · subst hi
      have hshard : blank.shard (shardOf "") = Shard.empty.push "" := by
        simp [blank, shard, hzero]
      rw [hshard, hown]
      exact Shard.holds_empty.push (by simp)
    · have hne : ¬ 0 = i.val := fun he => hi (Fin.ext (he ▸ hzero.symm))
      have hshard : blank.shard i = Shard.empty := by
        simp [blank, shard, Vector.getElem_set_ne, hne]
      rw [hshard, hother i hi]
      exact Shard.holds_empty
  · by_cases hi : i = shardOf ""
    · simp [hi, hown, maxLocal]
    · simp [hother i hi]

/-- Strings that are all new and few are all added. -/
theorem Knows.addAll (h : t.Knows strings) (new : List String) (hnodup : (strings ++ new).Nodup)
    (hfew : (strings ++ new).length ≤ maxLocal + 1) : (t.addAll new).Knows (strings ++ new) := by
  induction new generalizing t strings with
  | nil => simpa [SymbolTable.addAll] using h
  | cons s new ih =>
      have hs : s ∉ strings := fun hmem =>
        (List.nodup_append.1 hnodup).2.2 s hmem s (by simp) rfl
      have hroom : (inShard strings (shardOf s)).length ≤ maxLocal := by
        have hle := List.length_filter_le (fun x => decide (shardOf x = shardOf s)) strings
        simp only [List.length_append, List.length_cons] at hfew
        exact hle.trans (by omega)
      obtain ⟨hmem, -⟩ | ⟨-, hfull, -⟩ | ⟨-, -, hstep⟩ := h.tryIntern_cases s
      · exact absurd hmem hs
      · omega
      · have hadd : t.addAll (s :: new) = (t.add s).addAll new := by
          simp [SymbolTable.addAll, hstep]
        rw [hadd, List.append_cons]
        rw [List.append_cons] at hnodup hfew
        exact ih (h.add hs hroom) hnodup hfew

/-- The strings that are known from the start. -/
def given : List String :=
  "" :: predeclared

theorem knows_initial : initial.Knows given :=
  knows_blank.addAll predeclared (by decide) (by decide)

/-! ### Calls -/

/-- A call on a table. -/
inductive Call where
  | intern (s : String)
  | get (s : String)
deriving DecidableEq

/-- A call with its answer. -/
inductive Event where
  | interned (s : String) (sym : Symbol)
  | refused (s : String) (cause : ShardOverflow)
  | asked (s : String) (answer : Option Symbol)
deriving DecidableEq

namespace Event

/-- The call that is answered. -/
def call : Event → Call
  | interned s _ | refused s _ => .intern s
  | asked s _ => .get s

/-- The string that is known from then on. -/
def learned : Event → Option String
  | interned s _ => some s
  | _ => none

/-- The string that was given a symbol, and the symbol. -/
def returned : Event → Option (String × Symbol)
  | interned s sym => some (s, sym)
  | refused _ _ => none
  | asked s answer => answer.map (s, ·)

/-- The call overflowed its shard. -/
def isRefused : Event → Bool
  | refused _ _ => true
  | _ => false

end Event

/-- Answer a call; the table stays as it is when a shard overflows. -/
def perform (t : SymbolTable) : Call → Event × SymbolTable
  | .intern s =>
    match t.tryIntern s with
    | .ok (sym, t') => (.interned s sym, t')
    | .error cause => (.refused s cause, t)
  | .get s => (.asked s (t.get? s), t)

/-- Answer calls in order. -/
def run (t : SymbolTable) : List Call → List Event × SymbolTable
  | [] => ([], t)
  | c :: calls =>
    let first := t.perform c
    let rest := first.2.run calls
    (first.1 :: rest.1, rest.2)

/-- The strings known after some events on the initial table. -/
def known (events : List Event) : Finset String :=
  (given ++ events.filterMap Event.learned).toFinset

theorem perform_call (t : SymbolTable) (c : Call) : (t.perform c).1.call = c := by
  cases c with
  | intern s =>
      simp only [perform]
      split <;> rfl
  | get s => rfl

/-- Every call is answered, in its place. -/
theorem run_calls (t : SymbolTable) (calls : List Call) :
    (t.run calls).1.map Event.call = calls := by
  induction calls generalizing t with
  | nil => rfl
  | cons c calls ih => simp [run, perform_call, ih]

/-- The calls after some others are answered by the table that those leave. -/
theorem run_append (t : SymbolTable) (calls more : List Call) :
    t.run (calls ++ more) =
      ((t.run calls).1 ++ ((t.run calls).2.run more).1, ((t.run calls).2.run more).2) := by
  induction calls generalizing t with
  | nil => rfl
  | cons c calls ih => simp [run, ih]

/-- The moment of one event: the calls before it give the events before it, and the table that they
leave answers it and the calls after it. -/
theorem run_split {calls : List Call} {before after : List Event} {event : Event}
    (h : (t.run calls).1 = before ++ event :: after) :
    (t.run (before.map Event.call)).1 = before ∧
      ((t.run (before.map Event.call)).2.perform event.call).1 = event ∧
      (t.run (before.map Event.call)).2.run (event.call :: after.map Event.call) =
        (event :: after, (t.run calls).2) := by
  have hcalls := run_calls t calls
  rw [h, List.map_append, List.map_cons] at hcalls
  have hrun := run_append t (before.map Event.call) (event.call :: after.map Event.call)
  rw [hcalls] at hrun
  have hevents := congrArg Prod.fst hrun
  rw [h] at hevents
  have hlength : before.length = (t.run (before.map Event.call)).1.length := by
    have := congrArg List.length (run_calls t (before.map Event.call))
    simpa using this.symm
  obtain ⟨hbefore, hrest⟩ := List.append_inj hevents hlength
  refine ⟨hbefore.symm, ?_, Prod.ext hrest.symm (congrArg Prod.snd hrun).symm⟩
  simp only [run, List.cons.injEq] at hrest
  exact hrest.1.symm

/-- A refused call leaves the table as it was. -/
theorem perform_refused {c : Call} (h : (t.perform c).1.isRefused = true) : (t.perform c).2 = t := by
  cases c with
  | intern s =>
      simp only [perform] at h ⊢
      split at h
      · cases h
      · rfl
  | get s => rfl

/-- **A call that overflows changes nothing**: without such calls the others are answered as with
them, and the table ends the same. -/
theorem run_accepted (t : SymbolTable) (calls : List Call) :
    t.run (((t.run calls).1.filter (!·.isRefused)).map Event.call) =
      ((t.run calls).1.filter (!·.isRefused), (t.run calls).2) := by
  induction calls generalizing t with
  | nil => rfl
  | cons c calls ih =>
      simp only [run]
      by_cases hrefused : (t.perform c).1.isRefused = true
      · simpa [hrefused, perform_refused hrefused] using ih t
      · simp [hrefused, run, perform_call, ih]

/-! ### What a run makes known -/

/-- Some events in which the strings known went from `strings` to `later`. -/
structure Learned (strings : List String) (events : List Event) (later : List String) : Prop where
  keeps : strings <+: later
  mem_iff : ∀ x, x ∈ later ↔ x ∈ strings ∨ x ∈ events.filterMap Event.learned
  named : ∀ s sym, .interned s sym ∈ events → s ∈ later ∧ sym = symbolIn later s

theorem Learned.refl (strings : List String) : Learned strings [] strings :=
  ⟨List.prefix_refl _, by simp, by simp⟩

theorem Learned.trans {first second third : List String} {events more : List Event}
    (h : Learned first events second) (h' : Learned second more third) :
    Learned first (events ++ more) third := by
  refine ⟨h.keeps.trans h'.keeps, fun x => ?_, fun s sym hmem => ?_⟩
  · rw [h'.mem_iff, h.mem_iff, List.filterMap_append, List.mem_append, or_assoc]
  · rcases List.mem_append.1 hmem with hmem | hmem
    · obtain ⟨hs, hsym⟩ := h.named s sym hmem
      exact ⟨h'.keeps.subset hs, hsym.trans (symbolIn_later h'.keeps hs).symm⟩
    · exact h'.named s sym hmem

/-- One call. -/
theorem Knows.perform (h : t.Knows strings) (c : Call) :
    ∃ later, (t.perform c).2.Knows later ∧ Learned strings [(t.perform c).1] later := by
  have hsame (event : Event) (hl : event.learned = none) : Learned strings [event] strings := by
    refine ⟨List.prefix_refl _, by simp [hl], fun s sym hmem => ?_⟩
    rw [List.mem_singleton] at hmem
    subst hmem
    cases hl
  cases c with
  | get s => exact ⟨strings, h, hsame _ rfl⟩
  | intern s =>
      simp only [SymbolTable.perform]
      obtain ⟨hs, hstep⟩ | ⟨-, -, hstep⟩ | ⟨hs, hroom, hstep⟩ := h.tryIntern_cases s
      · rw [hstep]
        refine ⟨strings, h, List.prefix_refl _, fun x => ?_, fun x sym hmem => ?_⟩
        · simp only [List.filterMap_cons, Event.learned, List.filterMap_nil, List.mem_singleton]
          refine ⟨.inl, ?_⟩
          rintro (hx | rfl)
          · exact hx
          · exact hs
        · simp only [List.mem_singleton, Event.interned.injEq] at hmem
          obtain ⟨rfl, rfl⟩ := hmem
          exact ⟨hs, rfl⟩
      · rw [hstep]
        exact ⟨strings, h, hsame _ rfl⟩
      · rw [hstep]
        refine ⟨strings ++ [s], h.add hs hroom, List.prefix_append _ _, by simp [Event.learned], ?_⟩
        intro x sym hmem
        simp only [List.mem_singleton, Event.interned.injEq] at hmem
        obtain ⟨rfl, rfl⟩ := hmem
        exact ⟨by simp, rfl⟩

/-- Any number of calls. -/
theorem Knows.run (h : t.Knows strings) (calls : List Call) :
    ∃ later, (t.run calls).2.Knows later ∧ Learned strings (t.run calls).1 later := by
  induction calls generalizing t strings with
  | nil => exact ⟨strings, h, .refl strings⟩
  | cons c calls ih =>
      obtain ⟨next, hnext, hfirst⟩ := h.perform c
      obtain ⟨later, hlater, hrest⟩ := ih hnext
      exact ⟨later, hlater, hfirst.trans hrest⟩

/-! ### Runs on the initial table -/

variable {events before after : List Event} {event : Event} {calls : List Call}

/-- What is known after some events, as a set. -/
theorem Learned.known_eq {later : List String} (h : Learned given events later) :
    known events = later.toFinset := by
  ext x
  simp only [h.mem_iff, known, List.mem_toFinset, List.mem_append]

/-- The known strings of one shard, counted. -/
theorem Knows.card_filter (h : t.Knows strings) (i : Fin shardCount) :
    (strings.toFinset.filter fun s => shardOf s = i).card = (inShard strings i).length := by
  have hpart : (strings.toFinset.filter fun s => shardOf s = i) = (inShard strings i).toFinset := by
    ext x
    simp [mem_inShard]
  have hnodup : (inShard strings i).Nodup := h.nodup.filter _
  rw [hpart, List.toFinset_card_of_nodup hnodup]

/-- The table that answers one call of a run knows what was learned before, and the table at the end
knows it too. -/
theorem exists_moment (h : (initial.run calls).1 = before ++ event :: after) :
    ∃ (u : SymbolTable) (now later : List String), u.Knows now ∧ Learned given before now ∧
      (u.perform event.call).1 = event ∧ (initial.run calls).2.Knows later ∧ now <+: later := by
  obtain ⟨hbefore, hevent, hrest⟩ := run_split h
  obtain ⟨now, hnow, hlearned⟩ := knows_initial.run (before.map Event.call)
  obtain ⟨later, hlater, hmore⟩ := hnow.run (event.call :: after.map Event.call)
  rw [hbefore] at hlearned
  rw [hrest] at hlater
  exact ⟨_, now, later, hnow, hlearned, hevent, hlater, hmore.keeps⟩

/-- A question is answered as it would be at the end, if the string was known by then. -/
theorem run_asked {s : String} {answer : Option Symbol}
    (h : (initial.run calls).1 = before ++ .asked s answer :: after) :
    answer = if s ∈ known before then (initial.run calls).2.get? s else none := by
  obtain ⟨u, now, later, hnow, hlearned, hevent, hlater, hkeeps⟩ := exists_moment h
  have hanswer : u.get? s = answer := by
    simpa [Event.call, perform] using hevent
  have hmem : s ∈ known before ↔ s ∈ now := by rw [hlearned.known_eq, List.mem_toFinset]
  rw [← hanswer, hnow.get?_eq, hlater.get?_eq]
  by_cases hs : s ∈ now
  · rw [if_pos hs, if_pos (hmem.2 hs), if_pos (hkeeps.subset hs), symbolIn_later hkeeps hs]
  · rw [if_neg hs, if_neg (mt hmem.1 hs)]

/-- A symbol that was given out is still that of its string at the end. -/
theorem run_returned {s : String} {sym : Symbol}
    (h : (s, sym) ∈ (initial.run calls).1.filterMap Event.returned) :
    (initial.run calls).2.get? s = some sym := by
  obtain ⟨event, hmem, hevent⟩ := List.mem_filterMap.1 h
  cases event with
  | interned x sym' =>
      simp only [Event.returned, Option.some.injEq, Prod.mk.injEq] at hevent
      obtain ⟨rfl, rfl⟩ := hevent
      obtain ⟨later, hlater, hlearned⟩ := knows_initial.run calls
      obtain ⟨hs, hsym⟩ := hlearned.named _ _ hmem
      exact hlater.get?_eq_some_iff.2 ⟨hs, hsym.symm⟩
  | refused x cause => cases hevent
  | asked x answer =>
      simp only [Event.returned, Option.map_eq_some_iff, Prod.mk.injEq] at hevent
      obtain ⟨sym', rfl, rfl, rfl⟩ := hevent
      obtain ⟨before, after, hsplit⟩ := List.append_of_mem hmem
      have hasked := run_asked hsplit
      split at hasked
      · exact hasked.symm
      · cases hasked

/-- A call is refused if its string is new and the shard of the string is full. -/
theorem run_refused {s : String} (h : (initial.run calls).1 = before ++ event :: after)
    (hcall : event.call = .intern s) :
    (s ∉ known before ∧ ((known before).filter fun x => shardOf x = shardOf s).card = maxLocal + 1 ∧
      event = .refused s ⟨shardOf s, maxLocal + 1⟩) ∨
    ((s ∈ known before ∨ ((known before).filter fun x => shardOf x = shardOf s).card ≤ maxLocal) ∧
      ∃ sym, event = .interned s sym) := by
  obtain ⟨u, now, -, hnow, hlearned, hevent, -⟩ := exists_moment h
  rw [hlearned.known_eq, hnow.card_filter, List.mem_toFinset]
  rw [hcall] at hevent
  obtain ⟨hs, hstep⟩ | ⟨hs, hfull, hstep⟩ | ⟨hs, hroom, hstep⟩ := hnow.tryIntern_cases s
  · exact .inr ⟨.inl hs, _, by simpa [perform, hstep] using hevent.symm⟩
  · exact .inl ⟨hs, hfull, by simpa [perform, hstep] using hevent.symm⟩
  · exact .inr ⟨.inr hroom, _, by simpa [perform, hstep] using hevent.symm⟩

/-- What is promised of some calls on the initial table, their answers, and the table that they
leave. -/
structure Faithful (calls : List Call) (events : List Event) (t : SymbolTable) : Prop where
  /-- Every call is answered, in its place. -/
  answered : events.map Event.call = calls
  /-- Two strings were given one symbol exactly if they are equal. -/
  symbol_eq_iff : ∀ s sym s' sym', (s, sym) ∈ events.filterMap Event.returned →
    (s', sym') ∈ events.filterMap Event.returned → (sym = sym' ↔ s = s')
  /-- A symbol that was given out leads back to its string, which still has it. -/
  returned : ∀ s sym, (s, sym) ∈ events.filterMap Event.returned →
    t.lookup sym = s ∧ t.get? s = some sym
  /-- A string was found exactly if it was known by then, and under the symbol that it has. -/
  asked : ∀ before s answer after, events = before ++ .asked s answer :: after →
    answer = if s ∈ known before then t.get? s else none
  /-- The strings that have a symbol are the known ones. -/
  found_iff : ∀ s, (t.get? s).isSome = true ↔ s ∈ known events
  /-- They are counted once each. -/
  size : t.size = (known events).card
  /-- A string was refused exactly if it was new and its shard was full; else it has a symbol. -/
  refused_iff : ∀ before event after s, events = before ++ event :: after →
    event.call = .intern s →
    (event = .refused s ⟨shardOf s, maxLocal + 1⟩ ↔ s ∉ known before ∧
      ((known before).filter fun x => shardOf x = shardOf s).card = maxLocal + 1) ∧
    ((∃ sym, event = .interned s sym) ↔ s ∈ known before ∨
      ((known before).filter fun x => shardOf x = shardOf s).card ≤ maxLocal)
  /-- Without the calls that were refused, all else would have been the same. -/
  unchanged : initial.run ((events.filter (!·.isRefused)).map Event.call) =
    (events.filter (!·.isRefused), t)

/-- **Interning is a stable bijection**, whatever the calls, and also where shards overflow. -/
theorem run_faithful (calls : List Call) :
    Faithful calls (initial.run calls).1 (initial.run calls).2 := by
  obtain ⟨later, hlater, hlearned⟩ := knows_initial.run calls
  have hlookup (s : String) (sym : Symbol)
      (h : (s, sym) ∈ (initial.run calls).1.filterMap Event.returned) :
      (initial.run calls).2.lookup sym = s := by
    obtain ⟨hs, rfl⟩ := hlater.get?_eq_some_iff.1 (run_returned h)
    exact hlater.lookup_symbolIn hs
  refine ⟨run_calls initial calls, ?_, fun s sym h => ⟨hlookup s sym h, run_returned h⟩,
    fun _ _ _ _ => run_asked, fun s => ?_, ?_, ?_, run_accepted initial calls⟩
  · intro s sym s' sym' h h'
    constructor
    · rintro rfl
      exact (hlookup s sym h).symm.trans (hlookup s' sym h')
    · rintro rfl
      exact Option.some.inj ((run_returned h).symm.trans (run_returned h'))
  · rw [hlater.get?_eq, hlearned.known_eq, List.mem_toFinset]
    simp
  · rw [hlater.size, hlearned.known_eq, List.toFinset_card_of_nodup hlater.nodup]
  · intro before event after s hsplit hcall
    obtain ⟨hnew, hfull, hevent⟩ | ⟨hroom, sym, hevent⟩ := run_refused hsplit hcall
    · simp [hevent, hnew, hfull]
    · subst hevent
      simp only [reduceCtorEq, false_iff, Event.interned.injEq, true_and, exists_eq', true_iff]
      refine ⟨fun ⟨hnew, hfull⟩ => ?_, hroom⟩
      rcases hroom with hs | hle
      · exact hnew hs
      · omega

/-- Two strings that agree in the bytes that are hashed share a shard and not a symbol. -/
example : (initial.run [.intern "counterAB", .get "counterAC", .intern "counterAC",
    .get "counterAB"]).1 =
      [.interned "counterAB" (.ofParts (5 : Fin 16) 1), .asked "counterAC" none,
        .interned "counterAC" (.ofParts (5 : Fin 16) 2),
        .asked "counterAB" (some (.ofParts (5 : Fin 16) 1))] := by
  decide +kernel

end SymbolTable

end ScriptCore
