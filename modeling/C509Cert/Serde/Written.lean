/-
Which values a mirror can write.

`m.Writes P` says exactly which: those that satisfy `P`.  Almost every mirror is `Total`, so
what a struct can write is decided by the few fields whose mirrors are not, and a description
collects their conditions as it goes.
-/
import C509Cert.Serde.Mirror

namespace Serde

variable {α β γ σ : Type}

/-- Exactly the values that satisfy `P` are written. -/
def Mirror.Writes (m : Mirror α) (P : α → Prop) : Prop :=
  ∀ a, (∃ j, m.serialize a = some j) ↔ P a

/-- Every value is written. -/
def Mirror.Total (m : Mirror α) : Prop := ∀ a, ∃ j, m.serialize a = some j

/-- Exactly from the values that satisfy `P` all members are written. -/
def Fields.Writes (fs : Fields σ α) (P : σ → Prop) : Prop :=
  ∀ s, (∃ l, fs.serialize s = some l) ↔ P s

namespace Mirror

theorem total_bool : bool.Total := fun _ => ⟨_, rfl⟩

theorem total_string : string.Total := fun _ => ⟨_, rfl⟩

theorem total_integer (toInt : α → Int) (tryFrom : Int → Option α) :
    (integer toInt tryFrom).Total := fun _ => ⟨_, rfl⟩

theorem writes_text (display : α → Option String) (parse : String → Option α) :
    (text display parse).Writes fun a => ∃ s, display a = some s := by
  intro a
  constructor
  · rintro ⟨j, hj⟩
    obtain ⟨s, hs, -⟩ := Option.map_eq_some_iff.mp hj
    exact ⟨s, hs⟩
  · rintro ⟨s, hs⟩
    exact ⟨.str s, Option.map_eq_some_iff.mpr ⟨s, hs, rfl⟩⟩

theorem Total.newtype {get : α → β} {mk : β → α} {m : Mirror β} (hm : m.Total) :
    (newtype get mk m).Total := fun a => hm (get a)

theorem Total.option {m : Mirror α} (hm : m.Total) : m.option.Total := by
  intro o
  cases o with
  | none => exact ⟨.null, rfl⟩
  | some a => exact hm a

theorem Total.list {m : Mirror α} (hm : m.Total) : m.list.Total := by
  have hall : ∀ l : List α, ∃ js, l.mapM m.serialize = some js := by
    intro l
    induction l with
    | nil => exact ⟨[], rfl⟩
    | cons a l ih =>
        obtain ⟨j, hj⟩ := hm a
        obtain ⟨js, hjs⟩ := ih
        exact ⟨j :: js, by rw [List.mapM_cons, hj, hjs]; rfl⟩
  intro l
  obtain ⟨js, hjs⟩ := hall l
  exact ⟨.arr js, Option.map_eq_some_iff.mpr ⟨js, hjs, rfl⟩⟩

theorem Total.pair {m : Mirror α} {n : Mirror β} (hm : m.Total) (hn : n.Total) :
    (m.pair n).Total := by
  intro p
  obtain ⟨j, hj⟩ := hm p.1
  obtain ⟨k, hk⟩ := hn p.2
  refine ⟨.arr [j, k], ?_⟩
  simp only [Mirror.pair, hj, hk]
  rfl

end Mirror

namespace Fields

theorem writes_build (a : α) : (build a : Fields σ α).Writes fun _ => True :=
  fun _ => iff_of_true ⟨_, rfl⟩ trivial

/-- One more member is written where those before it are and its value is. -/
private theorem writes_snoc {fs : Fields σ γ} {P : σ → Prop} (hfs : fs.Writes P) {name : String}
    {s : σ} {o : Option Json} {Q : Prop} (ho : (∃ j, o = some j) ↔ Q) :
    (∃ l, (do
      let l ← fs.serialize s
      let j ← o
      return l ++ [(name, j)]) = some l) ↔ P s ∧ Q := by
  rw [← hfs s, ← ho]
  constructor
  · rintro ⟨_, h⟩
    obtain ⟨l, hl, h⟩ := Option.bind_eq_some_iff.mp h
    obtain ⟨j, hj, -⟩ := Option.bind_eq_some_iff.mp h
    exact ⟨⟨l, hl⟩, ⟨j, hj⟩⟩
  · rintro ⟨⟨l, hl⟩, ⟨j, hj⟩⟩
    exact ⟨l ++ [(name, j)], by rw [hl, hj]; rfl⟩

variable {P : σ → Prop} {Q : β → Prop} {name : String} {m : Mirror β}

theorem Writes.field {fs : Fields σ (β → α)} (hfs : fs.Writes P) {get : σ → β}
    (hm : m.Writes Q) : (fs.field name get m).Writes fun s => P s ∧ Q (get s) :=
  fun s => writes_snoc hfs (hm (get s))

/-- A field that is always written asks for nothing. -/
theorem Writes.totalField {fs : Fields σ (β → α)} (hfs : fs.Writes P) {get : σ → β}
    (hm : m.Total) : (fs.field name get m).Writes P := fun s =>
  (writes_snoc hfs (iff_of_true (hm (get s)) trivial)).trans (iff_of_eq (and_true (P s)))

theorem Writes.totalOptional {fs : Fields σ (Option β → α)} (hfs : fs.Writes P)
    {get : σ → Option β} (hm : m.Total) : (fs.optional name get m).Writes P := fun s =>
  (writes_snoc hfs (iff_of_true (hm.option (get s)) trivial)).trans (iff_of_eq (and_true (P s)))

theorem Writes.struct {fs : Fields σ σ} (hfs : fs.Writes P) : (Mirror.struct fs).Writes P := by
  intro s
  rw [← hfs s]
  constructor
  · rintro ⟨j, hj⟩
    obtain ⟨l, hl, -⟩ := Option.map_eq_some_iff.mp hj
    exact ⟨l, hl⟩
  · rintro ⟨l, hl⟩
    exact ⟨.obj l, Option.map_eq_some_iff.mpr ⟨l, hl, rfl⟩⟩

/-- A struct all of whose fields are always written is. -/
theorem Writes.total {fs : Fields σ σ} (hfs : fs.Writes fun _ => True) :
    (Mirror.struct fs).Total := fun s => (hfs.struct s).mpr trivial

end Fields

/-- A variant is written where its content is. -/
theorem total_tagged {m : Mirror β} (hm : m.Total) (tag : String) (b : β) :
    ∃ j, tagged tag m b = some j := by
  obtain ⟨j, hj⟩ := hm b
  exact ⟨.obj [(tag, j)], Option.map_eq_some_iff.mpr ⟨j, hj, rfl⟩⟩

end Serde
