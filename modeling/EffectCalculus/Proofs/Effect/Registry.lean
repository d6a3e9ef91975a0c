import EffectCalculus.Effect.Candidate

/-!
# The registry of specialisations

An effect says what it is made of. A class, by contrast, has an identity of its own: a table holds
the classes made so far, and asking a transformer twice for the same base gives the class that is
already there. What a class is asked for later (its base, its name, its ancestors) is what it was
given when it was made.

* `Registry.specialise`, `Registry.record`: one call, and the answers to a history of calls;
* `Registry.Sound`, `Registry.Sound.after`: what the table satisfies after every history;
* `Registry.Sound.induct`: every class is made of older ones;
* `Registry.answered_of_mem`, `Registry.mem_record_of_entry`: the answers to a history are the
  classes that are in the table after it.
-/

namespace EffectCalculus

namespace Registry

/-- A transformer as a class: one of the bare ones, or one that was made. -/
inductive Transformer
  | bare (layer : Layer)
  | made (number : Nat)
deriving DecidableEq, Repr

inductive Class
  | maybe
  | reader
  | state
  | identity
  | transformer (t : Transformer)
deriving DecidableEq, Repr

/-- A candidate that is no effect. -/
abbrev Foreign := { c : Candidate // ∀ e, c ≠ .effect e }

/-- What is offered as a base. -/
inductive Offer
  | effect (c : Class)
  | foreign (f : Foreign)
deriving DecidableEq

/-- A transformer is asked for its specialisation. -/
structure Call where
  on : Transformer
  offer : Offer
deriving DecidableEq

/-- A transformer does not take what it was offered. -/
structure Refusal where
  transformer : Transformer
  got : String
deriving DecidableEq, Repr

/-- A class that was made, with what it was given then. -/
structure Entry where
  origin : Transformer
  base : Class
  name : String
  /-- The nearest first. -/
  ancestors : List Transformer
deriving DecidableEq, Repr

end Registry

/-- The classes made so far, the oldest first; they are numbered by their places. -/
abbrev Registry := List Registry.Entry

namespace Registry

def name (reg : Registry) : Class → String
  | .maybe => Effect.maybe.name
  | .reader => Effect.reader.name
  | .state => Effect.state.name
  | .identity => Effect.identity.name
  | .transformer (.bare layer) => layer.name
  | .transformer (.made n) => (reg[n]?.map Entry.name).getD ""

def base? (reg : Registry) : Transformer → Option Class
  | .bare _ => none
  | .made n => reg[n]?.map Entry.base

/-- A transformer and its ancestors. -/
def lineage (reg : Registry) : Transformer → List Transformer
  | .bare layer => [.bare layer]
  | .made n => .made n :: (reg[n]?.map Entry.ancestors).getD []

/-- One class is a special case of another. -/
def isA (reg : Registry) : Class → Class → Bool
  | .transformer t, .transformer t' => t' ∈ reg.lineage t
  | a, b => a = b

/-- The class that was made for the same call. -/
def number? (reg : Registry) (origin : Transformer) (base : Class) : Option Nat :=
  reg.findIdx? fun e => e.origin = origin && e.base = base

/-- The entry of a class that is about to be made. -/
def entry (reg : Registry) (origin : Transformer) (base : Class) : Entry where
  origin := origin
  base := base
  name := reg.name (.transformer origin) ++ "[" ++ reg.name base ++ "]"
  ancestors := reg.lineage origin

/-- Answers a call; a class is made only if there is none for it. -/
def specialise (reg : Registry) (c : Call) : Except Refusal Transformer × Registry :=
  match c.offer with
  | .effect base =>
    match reg.number? c.on base with
    | some n => (.ok (.made n), reg)
    | none => (.ok (.made reg.length), reg ++ [reg.entry c.on base])
  | .foreign f => (.error ⟨c.on, f.val.literal⟩, reg)

/-- The calls of a history with their answers. -/
def record (reg : Registry) : List Call → List (Call × Except Refusal Transformer)
  | [] => []
  | c :: calls => (c, (reg.specialise c).1) :: record (reg.specialise c).2 calls

/-- The table after a history. -/
def after (reg : Registry) : List Call → Registry
  | [] => reg
  | c :: calls => after (reg.specialise c).2 calls

/-- A class that was made is among the first `n`. -/
def Class.Among (n : Nat) : Class → Prop
  | .transformer (.made k) => k < n
  | _ => True

/-- A call can only be made on a class that is there, and likewise offered. -/
def Call.Possible (reg : Registry) (c : Call) : Prop :=
  (Class.transformer c.on).Among reg.length ∧ ∀ base, c.offer = .effect base → base.Among reg.length

def Possible (reg : Registry) : List Call → Prop
  | [] => True
  | c :: calls => c.Possible reg ∧ Possible (reg.specialise c).2 calls

/-! ## Growth -/

theorem Class.Among.mono {c : Class} {n m : Nat} (h : c.Among n) (hnm : n ≤ m) : c.Among m := by
  match c with
  | .transformer (.made k) => exact Nat.lt_of_lt_of_le h hnm
  | .transformer (.bare _) | .maybe | .reader | .state | .identity => trivial

theorem Class.Among.of_succ {c : Class} {n : Nat} (h : c.Among (n + 1)) :
    c.Among n ∨ c = .transformer (.made n) := by
  match c with
  | .transformer (.made k) =>
    rcases Nat.lt_succ_iff_lt_or_eq.mp h with hk | rfl
    · exact .inl hk
    · exact .inr rfl
  | .transformer (.bare _) | .maybe | .reader | .state | .identity => exact .inl trivial

theorem among_of_entry {reg : Registry} {n : Nat} {e : Entry} (h : reg[n]? = some e) :
    (Class.transformer (.made n)).Among reg.length :=
  (List.getElem?_eq_some_iff.mp h).1

section Growth

variable {reg reg' : Registry} (hreg : reg <+: reg')

include hreg

theorem getElem?_grow {n : Nat} (h : n < reg.length) : reg'[n]? = reg[n]? := by
  obtain ⟨more, rfl⟩ := hreg
  exact List.getElem?_append_left h

theorem entry_grow {n : Nat} {e : Entry} (h : reg[n]? = some e) : reg'[n]? = some e := by
  rw [getElem?_grow hreg (among_of_entry h), h]

theorem name_grow {c : Class} (h : c.Among reg.length) : reg'.name c = reg.name c := by
  match c with
  | .transformer (.made n) => simp only [name, getElem?_grow hreg h]
  | .transformer (.bare _) | .maybe | .reader | .state | .identity => rfl

theorem lineage_grow {t : Transformer} (h : (Class.transformer t).Among reg.length) :
    reg'.lineage t = reg.lineage t := by
  match t with
  | .made n => simp only [lineage, getElem?_grow hreg h]
  | .bare _ => rfl

end Growth

/-- An entry of a table that has grown by one is an old one or the new one. -/
theorem entry_or_last {reg : Registry} {n : Nat} {e new : Entry}
    (h : (reg ++ [new])[n]? = some e) : reg[n]? = some e ∨ n = reg.length ∧ e = new := by
  rcases Nat.lt_or_ge n reg.length with hn | hn
  · rw [List.getElem?_append_left hn] at h
    exact .inl h
  · rw [List.getElem?_append_right hn, List.getElem?_singleton] at h
    split at h
    · exact .inr ⟨by omega, (Option.some.inj h).symm⟩
    · cases h

theorem prefix_specialise (reg : Registry) (c : Call) : reg <+: (reg.specialise c).2 := by
  unfold specialise
  split
  · split
    · exact List.prefix_rfl
    · exact List.prefix_append _ _
  · exact List.prefix_rfl

theorem prefix_after (reg : Registry) (calls : List Call) : reg <+: reg.after calls := by
  induction calls generalizing reg with
  | nil => exact List.prefix_rfl
  | cons c calls ih => exact (prefix_specialise reg c).trans (ih _)

/-! ## Soundness -/

/-- The entry with number `n` was made from what was there, and holds what it was given then. -/
structure Entry.Sound (reg : Registry) (n : Nat) (e : Entry) : Prop where
  origin_among : (Class.transformer e.origin).Among n
  base_among : e.base.Among n
  name_eq : e.name = reg.name (.transformer e.origin) ++ "[" ++ reg.name e.base ++ "]"
  ancestors_eq : e.ancestors = reg.lineage e.origin

/-- Every entry is sound, and there is one entry for a call. -/
structure Sound (reg : Registry) : Prop where
  entry : ∀ {n : Nat} {e : Entry}, reg[n]? = some e → e.Sound reg n
  unique : ∀ {n n' : Nat} {e e' : Entry}, reg[n]? = some e → reg[n']? = some e' →
    e.origin = e'.origin → e.base = e'.base → n = n'

theorem sound_nil : Sound [] where
  entry h := by simp at h
  unique h := by simp at h

/-- Every class is made of older ones, so that a fact can be proved of all of them by going back to
those that were not made. -/
theorem Sound.induct {reg : Registry} (h : reg.Sound) {P : Class → Prop}
    (plain : ∀ c : Class, c.Among 0 → P c)
    (made : ∀ (n : Nat) (e : Entry), reg[n]? = some e → P (.transformer e.origin) → P e.base →
      P (.transformer (.made n))) {c : Class} (hc : c.Among reg.length) : P c := by
  suffices hall : ∀ n, n ≤ reg.length → ∀ c : Class, c.Among n → P c from
    hall reg.length (Nat.le_refl _) c hc
  intro n
  induction n with
  | zero => exact fun _ => plain
  | succ n ih =>
    intro hn c hc
    have ih := ih (Nat.le_of_succ_le hn)
    obtain hold | rfl := hc.of_succ
    · exact ih c hold
    · have he := List.getElem?_eq_getElem hn
      have hsound := h.entry he
      exact made n _ he (ih _ hsound.origin_among) (ih _ hsound.base_among)

theorem Entry.Sound.grow {reg reg' : Registry} {n : Nat} {e : Entry} (h : e.Sound reg n)
    (hn : n ≤ reg.length) (hreg : reg <+: reg') : e.Sound reg' n where
  origin_among := h.origin_among
  base_among := h.base_among
  name_eq := by
    rw [name_grow hreg (h.origin_among.mono hn), name_grow hreg (h.base_among.mono hn)]
    exact h.name_eq
  ancestors_eq := by
    rw [lineage_grow hreg (h.origin_among.mono hn)]
    exact h.ancestors_eq

theorem number?_eq_some {reg : Registry} {origin : Transformer} {base : Class} {n : Nat}
    (h : reg.number? origin base = some n) :
    ∃ e, reg[n]? = some e ∧ e.origin = origin ∧ e.base = base := by
  obtain ⟨hn, hkey, -⟩ := List.findIdx?_eq_some_iff_getElem.mp h
  exact ⟨reg[n], List.getElem?_eq_getElem hn, by simpa using hkey⟩

theorem number?_eq_none {reg : Registry} {origin : Transformer} {base : Class}
    (h : reg.number? origin base = none) {n : Nat} {e : Entry} (he : reg[n]? = some e)
    (horigin : e.origin = origin) : e.base ≠ base := by
  intro hbase
  have hkey := List.findIdx?_eq_none_iff.mp h e (List.mem_of_getElem? he)
  simp [horigin, hbase] at hkey

/-- A class that is made for a new call keeps the table sound. -/
theorem Sound.add {reg : Registry} (h : reg.Sound) {origin : Transformer} {base : Class}
    (horigin : (Class.transformer origin).Among reg.length) (hbase : base.Among reg.length)
    (hnew : reg.number? origin base = none) : Sound (reg ++ [reg.entry origin base]) := by
  have hgrow : reg <+: reg ++ [reg.entry origin base] := List.prefix_append _ _
  constructor
  case entry =>
    intro n e he
    obtain he | ⟨rfl, rfl⟩ := entry_or_last he
    · exact (h.entry he).grow (Nat.le_of_lt (among_of_entry he)) hgrow
    · exact Entry.Sound.grow ⟨horigin, hbase, rfl, rfl⟩ (Nat.le_refl _) hgrow
  case unique =>
    intro n n' e e' he he' ho hb
    obtain he | ⟨rfl, rfl⟩ := entry_or_last he <;>
      obtain he' | ⟨rfl, rfl⟩ := entry_or_last he'
    · exact h.unique he he' ho hb
    · exact absurd hb (number?_eq_none hnew he ho)
    · exact absurd hb.symm (number?_eq_none hnew he' ho.symm)
    · rfl

theorem Sound.specialise {reg : Registry} (h : reg.Sound) {c : Call} (hc : c.Possible reg) :
    (reg.specialise c).2.Sound := by
  unfold Registry.specialise
  split
  next base hbase =>
    split
    · exact h
    next hnew => exact h.add hc.1 (hc.2 base hbase) hnew
  · exact h

theorem Sound.after {reg : Registry} (h : reg.Sound) {calls : List Call} (hp : reg.Possible calls) :
    (reg.after calls).Sound := by
  induction calls generalizing reg with
  | nil => exact h
  | cons c calls ih => exact ih (h.specialise hp.1) hp.2

/-! ## Answers -/

/-- The answer to a call, in a table that holds the class made for it. -/
inductive Answered (reg : Registry) : Call → Except Refusal Transformer → Prop
  | made {n : Nat} {e : Entry} : reg[n]? = some e →
    Answered reg ⟨e.origin, .effect e.base⟩ (.ok (.made n))
  | refused {on : Transformer} {f : Foreign} :
    Answered reg ⟨on, .foreign f⟩ (.error ⟨on, f.val.literal⟩)

theorem Answered.grow {reg reg' : Registry} {c : Call} {a : Except Refusal Transformer}
    (h : Answered reg c a) (hreg : reg <+: reg') : Answered reg' c a := by
  cases h with
  | made he => exact .made (entry_grow hreg he)
  | refused => exact .refused

theorem answered_specialise (reg : Registry) (c : Call) :
    Answered (reg.specialise c).2 c (reg.specialise c).1 := by
  obtain ⟨on, offer⟩ := c
  cases offer with
  | foreign f => exact .refused
  | effect base =>
    simp only [specialise]
    split
    next n hn =>
      obtain ⟨e, he, rfl, rfl⟩ := number?_eq_some hn
      exact .made he
    · have he : (reg ++ [reg.entry on base])[reg.length]? = some (reg.entry on base) := by simp
      exact .made he

theorem answered_of_mem {reg : Registry} {calls : List Call} {c : Call}
    {a : Except Refusal Transformer} (h : (c, a) ∈ reg.record calls) :
    Answered (reg.after calls) c a := by
  induction calls generalizing reg with
  | nil => cases h
  | cons c' calls ih =>
    obtain heq | h := List.mem_cons.mp h
    · cases heq
      exact (answered_specialise reg c).grow (prefix_after _ calls)
    · exact ih h

/-- A class that is there after a call was there before, or is the answer. -/
theorem specialise_eq_of_entry {reg : Registry} {c : Call} {n : Nat} {e : Entry}
    (h : (reg.specialise c).2[n]? = some e) :
    reg[n]? = some e ∨ c = ⟨e.origin, .effect e.base⟩ ∧ (reg.specialise c).1 = .ok (.made n) := by
  obtain ⟨on, offer⟩ := c
  cases offer with
  | foreign f => exact .inl h
  | effect base =>
    cases hn : reg.number? on base with
    | some k =>
      simp only [specialise, hn] at h
      exact .inl h
    | none =>
      simp only [specialise, hn] at h ⊢
      obtain he | ⟨rfl, rfl⟩ := entry_or_last h
      · exact .inl he
      · exact .inr ⟨rfl, rfl⟩

/-- A class that is there after a history was there before, or is one of the answers. -/
theorem mem_record_of_entry {reg : Registry} {calls : List Call} {n : Nat} {e : Entry}
    (h : (reg.after calls)[n]? = some e) :
    reg[n]? = some e ∨ (⟨e.origin, .effect e.base⟩, .ok (.made n)) ∈ reg.record calls := by
  induction calls generalizing reg with
  | nil => exact .inl h
  | cons c calls ih =>
    obtain he | hmem := ih h
    · obtain he | ⟨rfl, hans⟩ := specialise_eq_of_entry he
      · exact .inl he
      · exact .inr (hans ▸ List.mem_cons_self)
    · exact .inr (List.mem_cons_of_mem _ hmem)

end Registry

end EffectCalculus
