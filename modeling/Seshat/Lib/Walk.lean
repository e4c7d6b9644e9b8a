/-
Walks along a sorted list of pairs.  A walker stands at a pair, with the pairs behind it
and ahead of it, or nowhere.  On the side of the map the same walk is a key and the next
or previous key that the map has; both give the same answers, whatever the moves.
-/
import Mathlib.Data.List.Sort
import Mathlib.Order.RelClasses

namespace Walk

/-- At an item, the items behind it with the nearest first, or nowhere. -/
inductive Place (α : Type*) where
  | at (behind : List α) (item : α) (ahead : List α)
  | nowhere

namespace Place

variable {α : Type*}

/-- The list around the place. -/
def Within (l : List α) : Place α → Prop
  | .at behind item ahead => behind.reverse ++ item :: ahead = l
  | .nowhere => True

/-- The same place looked at from the other end. -/
def flip : Place α → Place α
  | .at behind item ahead => .at ahead item behind
  | .nowhere => .nowhere

def item? : Place α → Option α
  | .at _ item _ => some item
  | .nowhere => none

/-- The item and all ahead of it. -/
def onwards : Place α → List α
  | .at _ item ahead => item :: ahead
  | .nowhere => []

def next : Place α → Place α
  | .at behind item (other :: ahead) => .at (item :: behind) other ahead
  | .at _ _ [] => .nowhere
  | .nowhere => .nowhere

def prev (place : Place α) : Place α := place.flip.next.flip

/-- The first item of which `p` holds, behind the items already passed. -/
def find (p : α → Bool) (behind : List α) : List α → Place α
  | [] => .nowhere
  | item :: ahead => if p item then .at behind item ahead else find p (item :: behind) ahead

theorem Within.flip {l : List α} {place : Place α} (h : place.Within l) :
    place.flip.Within l.reverse := by
  cases place with
  | nowhere => trivial
  | «at» behind item ahead =>
      simp only [Within] at h
      simp [Place.flip, Within, ← h]

theorem Within.next {l : List α} {place : Place α} (h : place.Within l) :
    place.next.Within l := by
  cases place with
  | nowhere => trivial
  | «at» behind item ahead =>
      cases ahead with
      | nil => trivial
      | cons other ahead =>
          simp only [Within] at h
          simp [Place.next, Within, ← h]

theorem within_find (p : α → Bool) (behind l : List α) :
    (find p behind l).Within (behind.reverse ++ l) := by
  induction l generalizing behind with
  | nil => trivial
  | cons item ahead ih =>
      rw [find]
      split
      · rfl
      · simpa using ih (item :: behind)

/-- From the item found on, the list is what is left after dropping the others. -/
theorem onwards_find (p : α → Bool) (behind l : List α) :
    (find p behind l).onwards = l.dropWhile fun item => !p item := by
  induction l generalizing behind with
  | nil => rfl
  | cons item ahead ih =>
      rw [find, List.dropWhile_cons]
      cases p item with
      | true => rfl
      | false => exact ih (item :: behind)

theorem flip_flip (place : Place α) : place.flip.flip = place := by
  cases place <;> rfl

theorem item?_flip (place : Place α) : place.flip.item? = place.item? := by
  cases place <;> rfl

theorem onwards_next (place : Place α) : place.next.onwards = place.onwards.tail := by
  cases place with
  | nowhere => rfl
  | «at» behind item ahead => cases ahead <;> rfl

theorem item?_eq_head? (place : Place α) : place.item? = place.onwards.head? := by
  cases place <;> rfl

theorem length_onwards_le {l : List α} {place : Place α} (h : place.Within l) :
    place.onwards.length ≤ l.length := by
  cases place with
  | nowhere => exact Nat.zero_le _
  | «at» behind item ahead =>
      rw [← show _ = l from h]
      simp [onwards]

end Place

/-- A walker that stands within the list, or nowhere. -/
structure Walker {α : Type*} (l : List α) where
  place : Place α
  within : place.Within l

namespace Walker

variable {α : Type*} {l : List α}

def valid (w : Walker l) : Bool := w.place.item?.isSome

def item? (w : Walker l) : Option α := w.place.item?

def next (w : Walker l) : Walker l := ⟨w.place.next, w.within.next⟩

def prev (w : Walker l) : Walker l :=
  ⟨w.place.prev, by simpa [Place.prev] using w.within.flip.next.flip⟩

/-- To the first item of which `p` holds. -/
def toFirst (p : α → Bool) (l : List α) : Walker l :=
  ⟨.find p [] l, by simpa using Place.within_find p [] l⟩

/-- To the last item of which `p` holds. -/
def toLast (p : α → Bool) (l : List α) : Walker l :=
  ⟨(Place.find p [] l.reverse).flip, by
    simpa using (Place.within_find p [] l.reverse).flip⟩

end Walker

/-! ## The same walk on a map -/

section Nearest

variable {κ ν : Type*}

/-- Of the keys the map has within the bound, the one that comes first. -/
structure Nearest (r : κ → κ → Prop) (stored : κ → Option ν) (bound : κ → Prop) (key : κ) :
    Prop where
  mem : (stored key).isSome
  inBound : bound key
  first : ∀ other, (stored other).isSome → bound other → ¬ r other key

theorem Nearest.unique {r : κ → κ → Prop} [Std.Trichotomous r] {stored : κ → Option ν}
    {bound : κ → Prop} {a b : κ} (ha : Nearest r stored bound a)
    (hb : Nearest r stored bound b) : a = b :=
  Std.Trichotomous.trichotomous a b (hb.first a ha.mem ha.inBound)
    (ha.first b hb.mem hb.inBound)

open Classical in
/-- The first key of the map within the bound, if it has one. -/
noncomputable def nearest (r : κ → κ → Prop) (stored : κ → Option ν) (bound : κ → Prop) :
    Option κ :=
  if h : ∃ key, Nearest r stored bound key then some h.choose else none

theorem nearest_eq_some {r : κ → κ → Prop} [Std.Trichotomous r] {stored : κ → Option ν}
    {bound : κ → Prop} {key : κ} (h : Nearest r stored bound key) :
    nearest r stored bound = some key := by
  have hex : ∃ key, Nearest r stored bound key := ⟨key, h⟩
  rw [nearest, dif_pos hex, hex.choose_spec.unique h]

theorem nearest_eq_none {r : κ → κ → Prop} {stored : κ → Option ν} {bound : κ → Prop}
    (h : ∀ key, (stored key).isSome → ¬ bound key) : nearest r stored bound = none := by
  rw [nearest, dif_neg]
  rintro ⟨key, hkey⟩
  exact h key hkey.mem hkey.inBound

/-- The list has the pairs of the map, its keys in the order `r`. -/
structure Lists (r : κ → κ → Prop) (stored : κ → Option ν) (l : List (κ × ν)) : Prop where
  ordered : l.Pairwise fun a b => r a.1 b.1
  mem_iff : ∀ key value, (key, value) ∈ l ↔ stored key = some value

variable {r : κ → κ → Prop} {stored : κ → Option ν} {l : List (κ × ν)}

theorem Lists.reverse (h : Lists r stored l) : Lists (fun a b => r b a) stored l.reverse where
  ordered := List.pairwise_reverse.mpr h.ordered
  mem_iff key value := by rw [List.mem_reverse, h.mem_iff]

theorem Lists.exists_pair (h : Lists r stored l) {key : κ} (hkey : (stored key).isSome) :
    ∃ value, (key, value) ∈ l := by
  obtain ⟨value, hvalue⟩ := Option.isSome_iff_exists.mp hkey
  exact ⟨value, (h.mem_iff key value).mpr hvalue⟩

/-- A pair with none before it within the bound, and all behind it further off. -/
theorem Lists.nearest_of_split [Std.Asymm r] (h : Lists r stored l) {bound : κ → Prop}
    {before after : List (κ × ν)} {pair : κ × ν} (hl : before ++ pair :: after = l)
    (hbefore : ∀ p ∈ before, ¬ bound p.1) (hpair : bound pair.1) :
    Nearest r stored bound pair.1 where
  mem := by
    have hmem : (pair.1, pair.2) ∈ l := by simp [← hl]
    rw [(h.mem_iff _ _).mp hmem]
    rfl
  inBound := hpair
  first other hother hbound hlt := by
    obtain ⟨value, hmem⟩ := h.exists_pair hother
    have hordered := h.ordered
    rw [← hl] at hmem hordered
    obtain ⟨-, htail, -⟩ := List.pairwise_append.mp hordered
    rcases List.mem_append.mp hmem with hmem | hmem
    · exact hbefore _ hmem hbound
    · rcases List.mem_cons.mp hmem with rfl | hmem
      · exact Std.Asymm.asymm _ _ hlt hlt
      · exact Std.Asymm.asymm _ _ hlt (List.rel_of_pairwise_cons htail hmem)

variable [Std.Asymm r] [Std.Trichotomous r]

/-- A search stops at the first key of the map within the bound. -/
theorem Lists.nearest_find (h : Lists r stored l) {bound : κ → Prop} {p : κ × ν → Bool}
    (hp : ∀ pair, p pair = true ↔ bound pair.1) :
    ((Place.find p [] l).item?.map Prod.fst) = nearest r stored bound := by
  have hgeneral : ∀ (behind rest : List (κ × ν)), behind.reverse ++ rest = l →
      (∀ pair ∈ behind, ¬ bound pair.1) →
      ((Place.find p behind rest).item?.map Prod.fst) = nearest r stored bound := by
    intro behind rest hl hbehind
    induction rest generalizing behind with
    | nil =>
        rw [nearest_eq_none]
        · rfl
        · intro key hkey
          obtain ⟨value, hmem⟩ := h.exists_pair hkey
          rw [← hl, List.append_nil, List.mem_reverse] at hmem
          exact hbehind _ hmem
    | cons pair rest ih =>
        rw [Place.find]
        by_cases hpair : bound pair.1
        · rw [if_pos ((hp pair).mpr hpair),
            nearest_eq_some (h.nearest_of_split hl (by simpa using hbehind) hpair)]
          rfl
        · rw [if_neg (mt (hp pair).mp hpair)]
          refine ih (pair :: behind) (by simpa using hl) ?_
          rw [List.forall_mem_cons]
          exact ⟨hpair, hbehind⟩
  exact hgeneral [] l rfl (by simp)

/-- The next item has the next key of the map. -/
theorem Lists.nearest_next (h : Lists r stored l) {behind ahead : List (κ × ν)}
    {item : κ × ν} (hl : (Place.at behind item ahead).Within l) :
    ((Place.at behind item ahead).next.item?.map Prod.fst) =
      nearest r stored fun key => r item.1 key := by
  simp only [Place.Within] at hl
  have hordered := h.ordered
  rw [← hl] at hordered
  obtain ⟨-, htail, hcross⟩ := List.pairwise_append.mp hordered
  have hbefore : ∀ pair ∈ behind.reverse ++ [item], ¬ r item.1 pair.1 := by
    intro pair hpair hlt
    rcases List.mem_append.mp hpair with hpair | hpair
    · exact Std.Asymm.asymm _ _ hlt (hcross pair hpair item List.mem_cons_self)
    · obtain rfl := List.mem_singleton.mp hpair
      exact Std.Asymm.asymm _ _ hlt hlt
  cases ahead with
  | nil =>
      rw [nearest_eq_none]
      · rfl
      · intro key hkey
        obtain ⟨value, hmem⟩ := h.exists_pair hkey
        rw [← hl] at hmem
        exact hbefore _ hmem
  | cons other ahead =>
      have hsplit : (behind.reverse ++ [item]) ++ other :: ahead = l := by simpa using hl
      have hother : r item.1 other.1 := List.rel_of_pairwise_cons htail List.mem_cons_self
      rw [nearest_eq_some (h.nearest_of_split hsplit hbefore hother)]
      rfl

omit [Std.Trichotomous r] in
/-- Ahead of an item are the pairs of the map whose keys do not come before its own. -/
theorem Lists.mem_onwards (h : Lists r stored l) {place : Place (κ × ν)}
    (hplace : place.Within l) {key : κ} {value : ν} :
    (key, value) ∈ place.onwards ↔
      stored key = some value ∧ ∃ item, place.item? = some item ∧ ¬ r key item.1 := by
  cases place with
  | nowhere => simp [Place.onwards, Place.item?]
  | «at» behind item ahead =>
      simp only [Place.Within] at hplace
      have hordered := h.ordered
      rw [← hplace] at hordered
      obtain ⟨-, htail, hcross⟩ := List.pairwise_append.mp hordered
      simp only [Place.onwards, Place.item?, Option.some.injEq, exists_eq_left',
        ← h.mem_iff, ← hplace, List.mem_append]
      constructor
      · intro hmem
        refine ⟨.inr hmem, fun hlt => ?_⟩
        rcases List.mem_cons.mp hmem with rfl | hmem
        · exact Std.Asymm.asymm _ _ hlt hlt
        · exact Std.Asymm.asymm _ _ hlt (List.rel_of_pairwise_cons htail hmem)
      · rintro ⟨hmem | hmem, hnot⟩
        · exact absurd (hcross _ hmem item List.mem_cons_self) hnot
        · exact hmem

omit [Std.Asymm r] [Std.Trichotomous r] in
theorem Lists.pairwise_onwards (h : Lists r stored l) {place : Place (κ × ν)}
    (hplace : place.Within l) : place.onwards.Pairwise fun a b => r a.1 b.1 := by
  cases place with
  | nowhere => exact List.Pairwise.nil
  | «at» behind item ahead =>
      have hordered := h.ordered
      simp only [Place.Within] at hplace
      rw [← hplace] at hordered
      exact (List.pairwise_append.mp hordered).2.1

omit [Std.Asymm r] [Std.Trichotomous r] in
/-- An item is a pair of the map. -/
theorem Lists.stored_item (h : Lists r stored l) {place : Place (κ × ν)}
    (hplace : place.Within l) {item : κ × ν} (hitem : place.item? = some item) :
    stored item.1 = some item.2 := by
  cases place with
  | nowhere => contradiction
  | «at» behind other ahead =>
      cases hitem
      rw [← h.mem_iff, ← show _ = l from hplace]
      simp

end Nearest

end Walk
