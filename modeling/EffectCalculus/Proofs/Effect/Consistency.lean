import Mathlib.Logic.Relation
import Mathlib.Tactic.Choose
import EffectCalculus.Proofs.Effect.Name
import EffectCalculus.Proofs.Effect.Registry

/-!
# Consistency of the registry

Classes that were made one after the other, in any order and from each other, are held against the
effects that say what they are made of.

* `Registry.Stands`: the effect that a class stands for; it has exactly one (`Sound.exists_stands`,
  `Stands.functional`) and shares it with no other class (`Stands.injective`);
* `Registry.isA_iff_reaches`: the ancestors of a class are what is left of it when specialisations
  are dropped from its end;
* `Registry.registry_consistent`: **the answers to a history are consistent**, and they are those
  of `Effect.specialise`, `Effect.name` and `Effect.isA`.
-/

namespace EffectCalculus

/-- A specialisation is a special case of itself, and of whatever its origin is one of. -/
theorem Effect.isA_onto (layer : Layer) (bases : Bases) (base x : Effect) :
    (Effect.transformer layer (.onto bases base)).isA x =
      (decide (x = .transformer layer (.onto bases base)) ||
        (Effect.transformer layer bases).isA x) := by
  cases x with
  | transformer layer' bases' =>
    simp only [Effect.isA, Bases.refines]
    grind
  | _ => simp [Effect.isA]

namespace Registry

/-! ## Standing for an effect -/

/-- The effect that a class stands for: what it was made of, down to the bare transformers. -/
inductive Stands (reg : Registry) : Class → Effect → Prop
  | maybe : Stands reg .maybe .maybe
  | reader : Stands reg .reader .reader
  | state : Stands reg .state .state
  | identity : Stands reg .identity .identity
  | bare (layer : Layer) : Stands reg (.transformer (.bare layer)) (.transformer layer .bare)
  | made {n : Nat} {e : Entry} {layer : Layer} {bases : Bases} {base : Effect} :
    reg[n]? = some e → Stands reg (.transformer e.origin) (.transformer layer bases) →
    Stands reg e.base base →
    Stands reg (.transformer (.made n)) (.transformer layer (.onto bases base))

theorem Stands.transformer {reg : Registry} {t : Transformer} {x : Effect}
    (h : Stands reg (.transformer t) x) : ∃ layer bases, x = .transformer layer bases := by
  cases h with
  | bare layer => exact ⟨layer, .bare, rfl⟩
  | made _ _ _ => exact ⟨_, _, rfl⟩

/-- What a class stands for is what its origin's effect is specialised to. -/
theorem Stands.specialise {reg : Registry} {n : Nat} {e : Entry} {x b : Effect}
    (he : reg[n]? = some e) (horigin : Stands reg (.transformer e.origin) x)
    (hbase : Stands reg e.base b) :
    ∃ y, Stands reg (.transformer (.made n)) y ∧ x.specialise (.effect b) = .ok y := by
  obtain ⟨layer, bases, rfl⟩ := horigin.transformer
  exact ⟨_, .made he horigin hbase, rfl⟩

theorem Sound.exists_stands {reg : Registry} (h : reg.Sound) {c : Class}
    (hc : c.Among reg.length) : ∃ x, Stands reg c x := by
  refine h.induct (P := fun c => ∃ x, Stands reg c x) ?_ ?_ hc
  · intro c hplain
    match c with
    | .maybe => exact ⟨_, .maybe⟩
    | .reader => exact ⟨_, .reader⟩
    | .state => exact ⟨_, .state⟩
    | .identity => exact ⟨_, .identity⟩
    | .transformer (.bare layer) => exact ⟨_, .bare layer⟩
    | .transformer (.made k) => exact absurd hplain (Nat.not_lt_zero k)
  · rintro n e he ⟨x, horigin⟩ ⟨b, hbase⟩
    obtain ⟨y, hy, -⟩ := Stands.specialise he horigin hbase
    exact ⟨y, hy⟩

theorem Stands.functional {reg : Registry} {c : Class} {x x' : Effect} (h : Stands reg c x)
    (h' : Stands reg c x') : x = x' := by
  induction h generalizing x' with
  | maybe | reader | state | identity | bare => cases h'; rfl
  | made he _ _ horigin hbase =>
    cases h' with
    | made he' horigin' hbase' =>
      cases he.symm.trans he'
      cases horigin horigin'
      rw [hbase hbase']

theorem Stands.injective {reg : Registry} (hreg : reg.Sound) {c c' : Class} {x : Effect}
    (h : Stands reg c x) (h' : Stands reg c' x) : c = c' := by
  induction h generalizing c' with
  | maybe | reader | state | identity | bare => cases h'; rfl
  | made he _ _ horigin hbase =>
    cases h' with
    | made he' horigin' hbase' =>
      rw [hreg.unique he he' (Class.transformer.inj (horigin horigin')) (hbase hbase')]

section Made

variable {reg : Registry} (hreg : reg.Sound) {n : Nat} {e : Entry} (he : reg[n]? = some e)

include hreg he

theorem name_made : reg.name (.transformer (.made n)) =
    reg.name (.transformer e.origin) ++ "[" ++ reg.name e.base ++ "]" := by
  rw [← (hreg.entry he).name_eq]
  simp only [name, he, Option.map_some, Option.getD_some]

theorem lineage_made : reg.lineage (.made n) = .made n :: reg.lineage e.origin := by
  rw [← (hreg.entry he).ancestors_eq]
  simp only [lineage, he, Option.map_some, Option.getD_some]

theorem isA_made (c : Class) : reg.isA (.transformer (.made n)) c =
    (decide (c = .transformer (.made n)) || reg.isA (.transformer e.origin) c) := by
  cases c with
  | transformer t => simp [isA, lineage_made hreg he]
  | _ => simp [isA]

end Made

theorem Stands.name_eq {reg : Registry} (hreg : reg.Sound) {c : Class} {x : Effect}
    (h : Stands reg c x) : reg.name c = x.name := by
  induction h with
  | maybe | reader | state | identity => rfl
  | bare layer => simp [name, Effect.name, Bases.suffix]
  | made he _ _ horigin hbase =>
    rw [name_made hreg he, horigin, hbase]
    simp [Effect.name, Bases.suffix, String.append_assoc]

theorem Stands.isA_eq {reg : Registry} (hreg : reg.Sound) {c c' : Class} {x x' : Effect}
    (h : Stands reg c x) (h' : Stands reg c' x') : reg.isA c c' = x.isA x' := by
  induction h with
  | maybe | reader | state | identity => cases h' <;> simp [isA, Effect.isA]
  | bare layer =>
    cases h' with
    | bare layer' => simp [isA, lineage, Effect.isA, Bases.refines, eq_comm]
    | made _ _ _ => simp [isA, lineage, Effect.isA, Bases.refines]
    | _ => simp [isA, Effect.isA]
  | made he ho hb horigin hbase =>
    have hmade := Stands.made he ho hb
    rw [isA_made hreg he, Effect.isA_onto, horigin]
    congr 1
    refine decide_eq_decide.mpr ⟨?_, ?_⟩
    · rintro rfl
      exact h'.functional hmade
    · rintro rfl
      exact h'.injective hreg hmade

/-! ## Ancestors -/

theorem mem_lineage_self (reg : Registry) (t : Transformer) : t ∈ reg.lineage t := by
  cases t <;> simp [lineage]

/-- Dropping the last specialisation: `u` is the answer to a call on `t`. -/
def DropsTo (calls : List Call) (u t : Transformer) : Prop :=
  ∃ base, (⟨t, .effect base⟩, .ok u) ∈ record [] calls

theorem dropsTo_iff {calls : List Call} {u t : Transformer} :
    DropsTo calls u t ↔ ∃ n e, (after [] calls)[n]? = some e ∧ u = .made n ∧ t = e.origin := by
  constructor
  · rintro ⟨base, h⟩
    cases answered_of_mem h with
    | made he => exact ⟨_, _, he, rfl, rfl⟩
  · rintro ⟨n, e, he, rfl, rfl⟩
    obtain hnil | h := mem_record_of_entry he
    · simp at hnil
    · exact ⟨e.base, h⟩

section Ancestors

variable {calls : List Call} (hreg : (after [] calls).Sound)

include hreg

theorem reaches_of_mem_lineage {u t : Transformer}
    (hu : (Class.transformer u).Among (after [] calls).length)
    (h : t ∈ (after [] calls).lineage u) : Relation.ReflTransGen (DropsTo calls) u t := by
  refine hreg.induct (P := fun c => ∀ u, c = .transformer u → t ∈ (after [] calls).lineage u →
    Relation.ReflTransGen (DropsTo calls) u t) ?_ ?_ hu u rfl h
  · rintro _ hplain (layer | k) rfl h
    · rw [List.mem_singleton.mp h]
    · exact absurd hplain (Nat.not_lt_zero k)
  · rintro n e he horigin - _ ⟨⟩ h
    rw [lineage_made hreg he] at h
    obtain rfl | h := List.mem_cons.mp h
    · exact .refl
    · exact .head (dropsTo_iff.mpr ⟨n, e, he, rfl, rfl⟩) (horigin e.origin rfl h)

theorem mem_lineage_of_reaches {u t : Transformer}
    (h : Relation.ReflTransGen (DropsTo calls) u t) : t ∈ (after [] calls).lineage u := by
  induction h using Relation.ReflTransGen.head_induction_on with
  | refl => exact mem_lineage_self _ t
  | head hdrop _ ih =>
    obtain ⟨n, e, he, rfl, rfl⟩ := dropsTo_iff.mp hdrop
    rw [lineage_made hreg he]
    exact List.mem_cons_of_mem _ ih

end Ancestors

/-! ## Histories -/

theorem record_append (reg : Registry) (before later : List Call) :
    reg.record (before ++ later) = reg.record before ++ (reg.after before).record later := by
  induction before generalizing reg with
  | nil => rfl
  | cons c before ih => simp only [List.cons_append, record, after, ih]

theorem after_append (reg : Registry) (before later : List Call) :
    reg.after (before ++ later) = (reg.after before).after later := by
  induction before generalizing reg with
  | nil => rfl
  | cons c before ih => simp only [List.cons_append, after, ih]

theorem map_fst_record (reg : Registry) (calls : List Call) :
    (reg.record calls).map Prod.fst = calls := by
  induction calls generalizing reg with
  | nil => rfl
  | cons c calls ih => simp only [record, List.map_cons, ih]

theorem possible_of_mem {reg : Registry} {calls : List Call} (hp : reg.Possible calls) {c : Call}
    {a : Except Refusal Transformer} (h : (c, a) ∈ reg.record calls) :
    c.Possible (reg.after calls) := by
  induction calls generalizing reg with
  | nil => cases h
  | cons c' calls ih =>
    obtain heq | h := List.mem_cons.mp h
    · cases heq
      have hlen := ((prefix_specialise reg c).trans (prefix_after _ calls)).length_le
      exact ⟨hp.1.1.mono hlen, fun base hbase => (hp.1.2 base hbase).mono hlen⟩
    · exact ih hp.2 h

/-- What the answers to a history satisfy. -/
structure Consistent (calls : List Call) : Prop where
  /-- Every call has an answer. -/
  answered : (record [] calls).map Prod.fst = calls
  /-- Two calls have the same class for an answer just in case they are the same. -/
  same_iff : ∀ {c c' : Call} {u u' : Transformer}, (c, .ok u) ∈ record [] calls →
    (c', .ok u') ∈ record [] calls → (u = u' ↔ c.on = c'.on ∧ c.offer = c'.offer)
  /-- A call with an effect is answered by a class that has this base, is named after the two, and
  is a special case of exactly what is left when specialisations are dropped from its end. -/
  made : ∀ {on : Transformer} {base : Class} {a : Except Refusal Transformer},
    (⟨on, .effect base⟩, a) ∈ record [] calls → ∃ u, a = .ok u ∧
      (after [] calls).base? u = some base ∧
      (after [] calls).name (.transformer u) =
        (after [] calls).name (.transformer on) ++ "[" ++ (after [] calls).name base ++ "]" ∧
      ∀ c, (after [] calls).isA (.transformer u) c = true ↔
        ∃ t, c = .transformer t ∧ Relation.ReflTransGen (DropsTo calls) u t
  /-- Two classes with the same name are the same. -/
  name_injective : ∀ {c c' : Class}, c.Among (after [] calls).length →
    c'.Among (after [] calls).length →
    (after [] calls).name c = (after [] calls).name c' → c = c'
  /-- A call with anything else is refused, and without it the later answers are the same. -/
  refused : ∀ {before later : List Call} {on : Transformer} {f : Foreign},
    calls = before ++ ⟨on, .foreign f⟩ :: later →
    ∃ answers,
      record [] calls = record [] before ++
        (⟨on, .foreign f⟩, .error ⟨on, f.val.literal⟩) :: answers ∧
      record [] (before ++ later) = record [] before ++ answers ∧
      after [] (before ++ later) = after [] calls

/-- The classes can be read as effects, different ones as different effects, so that the answers
are those that the effects give. -/
structure Reading (calls : List Call) (meaning : Class → Effect) : Prop where
  injective : ∀ {c c' : Class}, c.Among (after [] calls).length →
    c'.Among (after [] calls).length → meaning c = meaning c' → c = c'
  name_eq : ∀ {c : Class}, c.Among (after [] calls).length →
    (after [] calls).name c = (meaning c).name
  isA_eq : ∀ {c c' : Class}, c.Among (after [] calls).length →
    c'.Among (after [] calls).length → (after [] calls).isA c c' = (meaning c).isA (meaning c')
  made : ∀ {on u : Transformer} {base : Class}, (⟨on, .effect base⟩, .ok u) ∈ record [] calls →
    (meaning (.transformer on)).specialise (.effect (meaning base)) =
      .ok (meaning (.transformer u))
  refused : ∀ {on : Transformer} {f : Foreign} {a : Except Refusal Transformer},
    (⟨on, .foreign f⟩, a) ∈ record [] calls →
    (meaning (.transformer on)).specialise f.val =
      .error (.badBase (meaning (.transformer on)) f.val.literal)

theorem same_iff_of_mem {calls : List Call} (hreg : (after [] calls).Sound) {c c' : Call}
    {u u' : Transformer} (h : (c, .ok u) ∈ record [] calls)
    (h' : (c', .ok u') ∈ record [] calls) : u = u' ↔ c.on = c'.on ∧ c.offer = c'.offer := by
  cases answered_of_mem h with
  | @made n e he =>
    cases answered_of_mem h' with
    | @made n' e' he' =>
      constructor
      · rintro ⟨⟩
        cases he.symm.trans he'
        exact ⟨rfl, rfl⟩
      · rintro ⟨horigin, hbase⟩
        rw [hreg.unique he he' horigin (Offer.effect.inj hbase)]

theorem isA_iff_reaches {calls : List Call} (hreg : (after [] calls).Sound) {u : Transformer}
    (hu : (Class.transformer u).Among (after [] calls).length) (c : Class) :
    (after [] calls).isA (.transformer u) c = true ↔
      ∃ t, c = .transformer t ∧ Relation.ReflTransGen (DropsTo calls) u t := by
  cases c with
  | transformer t =>
    simp only [isA, decide_eq_true_eq, Class.transformer.injEq, exists_eq_left']
    exact ⟨reaches_of_mem_lineage hreg hu, mem_lineage_of_reaches hreg⟩
  | _ => simp [isA]

theorem Sound.name_injective {reg : Registry} (h : reg.Sound) {c c' : Class}
    (hc : c.Among reg.length) (hc' : c'.Among reg.length) (hname : reg.name c = reg.name c') :
    c = c' := by
  obtain ⟨x, hx⟩ := h.exists_stands hc
  obtain ⟨x', hx'⟩ := h.exists_stands hc'
  rw [hx.name_eq h, hx'.name_eq h] at hname
  cases Effect.name_injective hname
  exact hx.injective h hx'

theorem record_refused (before later : List Call) (on : Transformer) (f : Foreign) :
    ∃ answers,
      record [] (before ++ ⟨on, .foreign f⟩ :: later) = record [] before ++
        (⟨on, .foreign f⟩, .error ⟨on, f.val.literal⟩) :: answers ∧
      record [] (before ++ later) = record [] before ++ answers ∧
      after [] (before ++ later) = after [] (before ++ ⟨on, .foreign f⟩ :: later) := by
  refine ⟨(after [] before).record later, ?_, ?_, ?_⟩
  · rw [record_append]
    rfl
  · rw [record_append]
  · rw [after_append, after_append]
    rfl

theorem specialise_foreign (layer : Layer) (bases : Bases) (f : Foreign) :
    (Effect.transformer layer bases).specialise f.val =
      .error (.badBase (.transformer layer bases) f.val.literal) := by
  obtain ⟨c, hc⟩ := f
  cases c with
  | effect e => exact absurd rfl (hc e)
  | plainClass name => rfl
  | datum a => rfl

theorem exists_reading {calls : List Call} (hp : Possible [] calls) :
    ∃ meaning, Reading calls meaning := by
  have hreg := sound_nil.after hp
  have hstands (c : Class) : ∃ x, c.Among (after [] calls).length →
      Stands (after [] calls) c x := by
    by_cases hc : c.Among (after [] calls).length
    · obtain ⟨x, hx⟩ := hreg.exists_stands hc
      exact ⟨x, fun _ => hx⟩
    · exact ⟨.maybe, fun h => absurd h hc⟩
  choose meaning hm using hstands
  refine ⟨meaning, ?_, ?_, ?_, ?_, ?_⟩
  · intro c c' hc hc' heq
    exact (hm c hc).injective hreg (heq ▸ hm c' hc')
  · intro c hc
    exact (hm c hc).name_eq hreg
  · intro c c' hc hc'
    exact (hm c hc).isA_eq hreg (hm c' hc')
  · intro on u base h
    obtain ⟨hon, hoffer⟩ := possible_of_mem hp h
    cases answered_of_mem h with
    | made he =>
      obtain ⟨y, hy, hspecialise⟩ := Stands.specialise he (hm _ hon) (hm _ (hoffer _ rfl))
      rw [hspecialise, (hm _ (among_of_entry he)).functional hy]
  · intro on f a h
    obtain ⟨layer, bases, heq⟩ := (hm _ (possible_of_mem hp h).1).transformer
    rw [heq]
    exact specialise_foreign layer bases f

/-- **The answers to every history are consistent**, and the effects give the same. -/
theorem registry_consistent (calls : List Call) (hp : Possible [] calls) :
    Consistent calls ∧ ∃ meaning, Reading calls meaning := by
  have hreg := sound_nil.after hp
  refine ⟨⟨map_fst_record [] calls, same_iff_of_mem hreg, ?_, hreg.name_injective, ?_⟩,
    exists_reading hp⟩
  · intro on base a h
    cases answered_of_mem h with
    | made he =>
      exact ⟨_, rfl, by simp [base?, he], name_made hreg he,
        isA_iff_reaches hreg (among_of_entry he)⟩
  · rintro before later on f rfl
    exact record_refused before later on f

/-- A reader over something optional, made, refused, specialised again, used as a base, and made
once more. -/
def nested : List Call :=
  [⟨.bare .reader, .effect .maybe⟩, ⟨.bare .reader, .foreign ⟨.datum (.int 3), nofun⟩⟩,
    ⟨.made 0, .effect .identity⟩, ⟨.bare .state, .effect (.transformer (.made 0))⟩,
    ⟨.bare .reader, .effect .maybe⟩]

theorem registry_consistent_nested :
    Possible [] nested ∧
      (record [] nested).map Prod.snd = [.ok (.made 0), .error ⟨.bare .reader, "3"⟩,
        .ok (.made 1), .ok (.made 2), .ok (.made 0)] ∧
      (after [] nested).map Entry.name =
        ["ReaderT[Maybe]", "ReaderT[Maybe][Identity]", "StateT[ReaderT[Maybe]]"] ∧
      Consistent nested ∧ ∃ meaning, Reading nested meaning := by
  have hp : Possible [] nested := by
    refine ⟨⟨trivial, ?_⟩, ⟨trivial, nofun⟩, ⟨Nat.one_pos, ?_⟩, ⟨trivial, ?_⟩, ⟨trivial, ?_⟩,
      trivial⟩
    · rintro _ ⟨⟩
      trivial
    · rintro _ ⟨⟩
      trivial
    · rintro _ ⟨⟩
      exact Nat.two_pos
    · rintro _ ⟨⟩
      trivial
  exact ⟨hp, rfl, by decide, registry_consistent nested hp⟩

end Registry

end EffectCalculus
