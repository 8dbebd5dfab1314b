import Graphed.Library.Attempts
import Graphed.Library.Dict
import Graphed.Systematics.Varied

/-!
# One call for each universe

A verb on two values runs once for each label of their union, each narrowed to the label, and
merges their contexts. A value is carried down a lineage link by link: through a mask with such a
verb, through a projection to one of its members.
-/

namespace Graphed

open Attempts

namespace Varied

variable {α β : Type}

@[ext]
theorem ext {c d : Varied α} (hmembers : c.members = d.members) : c = d := by
  obtain ⟨members, nominal, hnominal⟩ := c
  obtain ⟨members', nominal', hnominal'⟩ := d
  obtain rfl : members = members' := hmembers
  rw [hnominal] at hnominal'
  obtain rfl := Option.some.inj hnominal'
  rfl

/-- A container given its nominal member and the others. -/
def of (nominal : α) (others : List (String × α)) : Varied α :=
  ⟨("nominal", nominal) :: others, nominal, by simp⟩

def map (f : α → β) (c : Varied α) : Varied β :=
  ⟨c.members.map fun member => (member.1, f member.2), f c.nominal, by
    rw [lookup_map_snd, c.nominal_mem, Option.map_some]⟩

variable (registry : PointRegistry) (f : α → β) (c : Varied α)

@[simp]
theorem labels_map : (c.map f).labels = c.labels := by
  simp [labels, map, Function.comp_def]

theorem lookup_map (label : String) :
    (c.map f).members.lookup label = (c.members.lookup label).map f :=
  lookup_map_snd c.members f

/-- Resolution reads the labels only. -/
theorem keyFor_map (label : String) : (c.map f).keyFor registry label = c.keyFor registry label := by
  have hpoints : (c.map f).registeredPoints registry = c.registeredPoints registry := by
    rw [registeredPoints, registeredPoints, labels_map]
  have hproject : (c.map f).projectedKey registry label = c.projectedKey registry label := by
    unfold projectedKey axes
    rw [hpoints]
  rw [keyFor, keyFor, lookup_map, Option.isSome_map, hproject]

theorem memberFor_map (label : String) :
    (c.map f).memberFor registry label = f (c.memberFor registry label) := by
  rw [memberFor, memberFor, keyFor_map, lookup_map]
  cases c.members.lookup (c.keyFor registry label) with
  | none => rfl
  | some member => rfl

theorem map_map {γ : Type} (g : β → γ) : (c.map f).map g = c.map (g ∘ f) :=
  ext (by simp [map])

theorem map_id : c.map id = c :=
  ext (by simp [map])

theorem map_of (nominal : α) (others : List (String × α)) :
    (of nominal others).map f = of (f nominal) (others.map fun o => (o.1, f o.2)) :=
  ext rfl

end Varied

/-- A value: one array, or a container with a context of its own. -/
inductive Broadcast (α κ : Type) where
  | array (member : α)
  | varied (container : Varied α) (context : κ)

/-- One step of a lineage: rows selected, registrations only, or one universe. -/
inductive Link (α κ : Type) where
  | mask (mask : Broadcast α κ)
  | vary
  | project (label : String)

namespace Broadcast

variable {α β κ μ : Type} (registry : PointRegistry)

def operand : Broadcast α κ → Operand α
  | array member => .plain member
  | varied container _ => .varied container

def memberOf (value : Broadcast α κ) (label : String) : α := value.operand.memberOf registry label

def map (f : α → β) (g : κ → μ) : Broadcast α κ → Broadcast β μ
  | array member => array (f member)
  | varied container context => varied (container.map f) (g context)

@[simp]
theorem labels_operand_map (f : α → β) (g : κ → μ) (value : Broadcast α κ) :
    (value.map f g).operand.labels = value.operand.labels := by
  cases value with
  | array member => rfl
  | varied container context => exact Varied.labels_map f container

@[simp]
theorem memberOf_map (f : α → β) (g : κ → μ) (value : Broadcast α κ) (label : String) :
    (value.map f g).memberOf registry label = f (value.memberOf registry label) := by
  cases value with
  | array member => rfl
  | varied container context => exact Varied.memberFor_map registry f container label

theorem map_map {γ ν : Type} (f : α → β) (g : κ → μ) (f' : β → γ) (g' : μ → ν)
    (value : Broadcast α κ) : (value.map f g).map f' g' = value.map (f' ∘ f) (g' ∘ g) := by
  cases value with
  | array member => rfl
  | varied container context => exact congrArg (varied · _) (Varied.map_map f container f')

theorem map_id (value : Broadcast α κ) : value.map id id = value := by
  cases value with
  | array member => rfl
  | varied container context => exact congrArg (varied · context) (Varied.map_id container)

end Broadcast

def Link.map {α β κ μ : Type} (f : α → β) (g : κ → μ) : Link α κ → Link β μ
  | mask value => mask (value.map f g)
  | vary => vary
  | project label => project label

theorem Link.map_map {α β κ μ γ ν : Type} (f : α → β) (g : κ → μ) (f' : β → γ) (g' : μ → ν)
    (link : Link α κ) : (link.map f g).map f' g' = link.map (f' ∘ f) (g' ∘ g) := by
  cases link with
  | mask value => exact congrArg mask (Broadcast.map_map f g f' g' value)
  | vary => rfl
  | project label => rfl

theorem Link.map_id {α κ : Type} (link : Link α κ) : link.map id id = link := by
  cases link with
  | mask value => exact congrArg mask (Broadcast.map_id value)
  | vary => rfl
  | project label => rfl

/-- The labels besides `nominal` that two values carry. -/
def otherLabels {α κ : Type} (value mask : Broadcast α κ) : List String :=
  (unionLabels [value.operand, mask.operand]).tail

theorem otherLabels_map {α β κ μ : Type} (f : α → β) (g : κ → μ) (value mask : Broadcast α κ) :
    otherLabels (value.map f g) (mask.map f g) = otherLabels value mask := by
  simp [otherLabels, unionLabels]

/-- What a verb does for one label, how it merges contexts, and the context of one array. -/
structure Verb (E α κ : Type) where
  record : α → α → Except E α
  merge : κ → κ → Except E κ
  contextOf : α → κ

namespace Verb

variable {E α κ : Type} (verb : Verb E α κ) (registry : PointRegistry)

def context : Broadcast α κ → κ
  | .array member => verb.contextOf member
  | .varied _ context => context

/-- Run once for each label of the union, every operand narrowed to it. -/
def expandOver (value mask : Broadcast α κ) : Except E (Broadcast α κ) := do
  let nominal ← verb.record (value.memberOf registry "nominal") (mask.memberOf registry "nominal")
  let others ← (otherLabels value mask).mapM fun label =>
    (verb.record (value.memberOf registry label) (mask.memberOf registry label)).map (label, ·)
  let context ← verb.merge (verb.context value) (verb.context mask)
  .ok (.varied (.of nominal others) context)

/-- With no container among the operands the call passes straight through. -/
def expand : Broadcast α κ → Broadcast α κ → Except E (Broadcast α κ)
  | .array value, .array mask => (verb.record value mask).map .array
  | value, mask => verb.expandOver registry value mask

/-- The value across one link. -/
def follow (value : Broadcast α κ) : Link α κ → Except E (Broadcast α κ)
  | .mask mask => verb.expand registry value mask
  | .project label => .ok (.array (value.memberOf registry label))
  | .vary => .ok value

def followAll (value : Broadcast α κ) (links : List (Link α κ)) : Except E (Broadcast α κ) :=
  links.foldlM (verb.follow registry) value

theorem expandOver_eq_ok_iff {value mask answer : Broadcast α κ} :
    verb.expandOver registry value mask = .ok answer ↔ ∃ nominal others context,
      verb.record (value.memberOf registry "nominal") (mask.memberOf registry "nominal") =
        .ok nominal ∧
      (otherLabels value mask).mapM (fun label => (verb.record (value.memberOf registry label)
        (mask.memberOf registry label)).map (label, ·)) = .ok others ∧
      verb.merge (verb.context value) (verb.context mask) = .ok context ∧
      .varied (.of nominal others) context = answer := by
  simp only [expandOver, bind_eq_ok_iff, Except.ok.injEq, exists_and_left]

theorem followAll_cons_eq_ok_iff {value answer : Broadcast α κ} {link : Link α κ}
    {links : List (Link α κ)} : verb.followAll registry value (link :: links) = .ok answer ↔
      ∃ next, verb.follow registry value link = .ok next ∧
        verb.followAll registry next links = .ok answer := by
  rw [followAll, List.foldlM_cons, bind_eq_ok_iff]
  rfl

theorem followAll_append_eq_ok_iff {value answer : Broadcast α κ} {links rest : List (Link α κ)} :
    verb.followAll registry value (links ++ rest) = .ok answer ↔
      ∃ next, verb.followAll registry value links = .ok next ∧
        verb.followAll registry next rest = .ok answer := by
  rw [followAll, List.foldlM_append, bind_eq_ok_iff]
  rfl

end Verb

/-! ### A verb seen through a map -/

/-- `verb'` does on the images what `verb` does. -/
structure SeenAs {E E' α κ β μ : Type} (verb : Verb E α κ) (verb' : Verb E' β μ) (f : α → β)
    (g : κ → μ) : Prop where
  record : ∀ a b c, verb.record a b = .ok c → verb'.record (f a) (f b) = .ok (f c)
  merge : ∀ a b c, verb.merge a b = .ok c → verb'.merge (g a) (g b) = .ok (g c)
  contextOf : ∀ a, verb'.contextOf (f a) = g (verb.contextOf a)

/-- `verb` returns where both others do on the images. -/
structure Returns {E E₁ E₂ α κ β μ γ ν : Type} (verb : Verb E α κ) (verb₁ : Verb E₁ β μ)
    (verb₂ : Verb E₂ γ ν) (f₁ : α → β) (g₁ : κ → μ) (f₂ : α → γ) (g₂ : κ → ν) : Prop where
  record : ∀ a b c d, verb₁.record (f₁ a) (f₁ b) = .ok c → verb₂.record (f₂ a) (f₂ b) = .ok d →
    ∃ e, verb.record a b = .ok e
  merge : ∀ a b c d, verb₁.merge (g₁ a) (g₁ b) = .ok c → verb₂.merge (g₂ a) (g₂ b) = .ok d →
    ∃ e, verb.merge a b = .ok e

section Seen

variable {E E₁ E₂ α κ β μ γ ν : Type} {verb : Verb E α κ} {verb₁ : Verb E₁ β μ}
  {verb₂ : Verb E₂ γ ν} {f : α → β} {g : κ → μ} {f₂ : α → γ} {g₂ : κ → ν}
  {registry : PointRegistry}

theorem SeenAs.context (h : SeenAs verb verb₁ f g) (value : Broadcast α κ) :
    verb₁.context (value.map f g) = g (verb.context value) := by
  cases value with
  | array member => exact h.contextOf member
  | varied container context => rfl

theorem SeenAs.expandOver (h : SeenAs verb verb₁ f g) {value mask answer : Broadcast α κ}
    (hok : verb.expandOver registry value mask = .ok answer) :
    verb₁.expandOver registry (value.map f g) (mask.map f g) = .ok (answer.map f g) := by
  obtain ⟨nominal, others, context, hnominal, hothers, hcontext, rfl⟩ :=
    (verb.expandOver_eq_ok_iff registry).mp hok
  refine (verb₁.expandOver_eq_ok_iff registry).mpr
    ⟨f nominal, others.map fun o => (o.1, f o.2), g context, ?_, ?_, ?_, ?_⟩
  · rw [Broadcast.memberOf_map, Broadcast.memberOf_map]
    exact h.record _ _ _ hnominal
  · rw [otherLabels_map]
    refine mapM_ok_map (fun label entry hentry => ?_) hothers
    obtain ⟨member, hmember, rfl⟩ := map_eq_ok_iff.mp hentry
    rw [Broadcast.memberOf_map, Broadcast.memberOf_map]
    exact map_eq_ok_iff.mpr ⟨f member, h.record _ _ _ hmember, rfl⟩
  · rw [h.context, h.context]
    exact h.merge _ _ _ hcontext
  · rw [Broadcast.map, Varied.map_of]

theorem SeenAs.follow (h : SeenAs verb verb₁ f g) {value answer : Broadcast α κ}
    {link : Link α κ} (hok : verb.follow registry value link = .ok answer) :
    verb₁.follow registry (value.map f g) (link.map f g) = .ok (answer.map f g) := by
  cases link with
  | mask mask =>
      cases value with
      | array value =>
          cases mask with
          | array mask =>
              obtain ⟨member, hmember, rfl⟩ := map_eq_ok_iff.mp hok
              exact map_eq_ok_iff.mpr ⟨f member, h.record _ _ _ hmember, rfl⟩
          | varied container context => exact h.expandOver hok
      | varied container context => exact h.expandOver hok
  | vary =>
      cases hok
      rfl
  | project label =>
      cases hok
      change Except.ok (Broadcast.array ((value.map f g).memberOf registry label)) = _
      rw [Broadcast.memberOf_map]
      rfl

/-- **A walk seen through a map is a walk.** -/
theorem SeenAs.followAll (h : SeenAs verb verb₁ f g) {value answer : Broadcast α κ}
    {links : List (Link α κ)} (hok : verb.followAll registry value links = .ok answer) :
    verb₁.followAll registry (value.map f g) (links.map (Link.map f g)) =
      .ok (answer.map f g) := by
  induction links generalizing value with
  | nil =>
      cases hok
      rfl
  | cons link links ih =>
      obtain ⟨next, hnext, hrest⟩ := (verb.followAll_cons_eq_ok_iff registry).mp hok
      rw [List.map_cons]
      exact (verb₁.followAll_cons_eq_ok_iff registry).mpr ⟨_, h.follow hnext, ih hrest⟩

theorem Returns.expandOver (h : Returns verb verb₁ verb₂ f g f₂ g₂)
    (h₁ : SeenAs verb verb₁ f g) (h₂ : SeenAs verb verb₂ f₂ g₂) {value mask : Broadcast α κ}
    {b : Broadcast β μ} {c : Broadcast γ ν}
    (hb : verb₁.expandOver registry (value.map f g) (mask.map f g) = .ok b)
    (hc : verb₂.expandOver registry (value.map f₂ g₂) (mask.map f₂ g₂) = .ok c) :
    ∃ answer, verb.expandOver registry value mask = .ok answer := by
  obtain ⟨nominal, others, context, hnominal, hothers, hcontext, -⟩ :=
    (verb₁.expandOver_eq_ok_iff registry).mp hb
  obtain ⟨nominal', others', context', hnominal', hothers', hcontext', -⟩ :=
    (verb₂.expandOver_eq_ok_iff registry).mp hc
  rw [Broadcast.memberOf_map, Broadcast.memberOf_map] at hnominal hnominal'
  rw [h₁.context, h₁.context] at hcontext
  rw [h₂.context, h₂.context] at hcontext'
  rw [otherLabels_map] at hothers hothers'
  obtain ⟨n, hn⟩ := h.record _ _ _ _ hnominal hnominal'
  obtain ⟨k, hk⟩ := h.merge _ _ _ _ hcontext hcontext'
  have hothersOk : ∃ os, (otherLabels value mask).mapM (fun label =>
      (verb.record (value.memberOf registry label) (mask.memberOf registry label)).map
        (label, ·)) = .ok os := by
    refine exists_mapM_ok (fun label entry entry' hentry hentry' => ?_) hothers hothers'
    obtain ⟨member, hmember, -⟩ := map_eq_ok_iff.mp hentry
    obtain ⟨member', hmember', -⟩ := map_eq_ok_iff.mp hentry'
    rw [Broadcast.memberOf_map, Broadcast.memberOf_map] at hmember hmember'
    obtain ⟨e, he⟩ := h.record _ _ _ _ hmember hmember'
    exact ⟨(label, e), map_eq_ok_iff.mpr ⟨e, he, rfl⟩⟩
  obtain ⟨os, hos⟩ := hothersOk
  exact ⟨_, (verb.expandOver_eq_ok_iff registry).mpr ⟨n, os, k, hn, hos, hk, rfl⟩⟩

theorem Returns.follow (h : Returns verb verb₁ verb₂ f g f₂ g₂) (h₁ : SeenAs verb verb₁ f g)
    (h₂ : SeenAs verb verb₂ f₂ g₂) {value : Broadcast α κ} {link : Link α κ} {b : Broadcast β μ}
    {c : Broadcast γ ν} (hb : verb₁.follow registry (value.map f g) (link.map f g) = .ok b)
    (hc : verb₂.follow registry (value.map f₂ g₂) (link.map f₂ g₂) = .ok c) :
    ∃ answer, verb.follow registry value link = .ok answer := by
  cases link with
  | mask mask =>
      cases value with
      | array value =>
          cases mask with
          | array mask =>
              obtain ⟨member, hmember, -⟩ := map_eq_ok_iff.mp hb
              obtain ⟨member', hmember', -⟩ := map_eq_ok_iff.mp hc
              obtain ⟨e, he⟩ := h.record _ _ _ _ hmember hmember'
              exact ⟨.array e, map_eq_ok_iff.mpr ⟨e, he, rfl⟩⟩
          | varied container context => exact h.expandOver h₁ h₂ hb hc
      | varied container context => exact h.expandOver h₁ h₂ hb hc
  | vary => exact ⟨value, rfl⟩
  | project label => exact ⟨_, rfl⟩

/-- **A walk returns where both its images do.** -/
theorem Returns.followAll (h : Returns verb verb₁ verb₂ f g f₂ g₂) (h₁ : SeenAs verb verb₁ f g)
    (h₂ : SeenAs verb verb₂ f₂ g₂) {value : Broadcast α κ} {links : List (Link α κ)}
    {b : Broadcast β μ} {c : Broadcast γ ν}
    (hb : verb₁.followAll registry (value.map f g) (links.map (Link.map f g)) = .ok b)
    (hc : verb₂.followAll registry (value.map f₂ g₂) (links.map (Link.map f₂ g₂)) = .ok c) :
    ∃ answer, verb.followAll registry value links = .ok answer := by
  induction links generalizing value with
  | nil => exact ⟨value, rfl⟩
  | cons link links ih =>
      rw [List.map_cons] at hb hc
      obtain ⟨b', hb', hbrest⟩ := (verb₁.followAll_cons_eq_ok_iff registry).mp hb
      obtain ⟨c', hc', hcrest⟩ := (verb₂.followAll_cons_eq_ok_iff registry).mp hc
      obtain ⟨next, hnext⟩ := h.follow h₁ h₂ hb' hc'
      -- the images' next values are the images of the next value
      rw [h₁.follow hnext, Except.ok.injEq] at hb'
      rw [h₂.follow hnext, Except.ok.injEq] at hc'
      obtain ⟨answer, hanswer⟩ := ih (hb' ▸ hbrest) (hc' ▸ hcrest)
      exact ⟨answer, (verb.followAll_cons_eq_ok_iff registry).mpr ⟨next, hnext, hanswer⟩⟩

end Seen

end Graphed
