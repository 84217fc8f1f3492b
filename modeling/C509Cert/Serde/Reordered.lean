/-
The order of members.

An object is a set of members, but a document holds them in some order, and not every program
keeps it.  Two documents that differ in nothing but this order, in any of their objects, are
`Reordered`, and a mirror is `Orderless` if it reads them alike.

A struct looks its members up by name.  That is the same for every order as long as no name
it looks for is there twice, which it checks first; and the check does not depend on the order
either.
-/
import C509Cert.Serde.Mirror
import Mathlib.Data.List.Forall2

namespace Serde

variable {α β γ σ : Type}

/-- Members of one name, with related values. -/
inductive Member (R : Json → Json → Prop) : String × Json → String × Json → Prop
  | mk {name : String} {j j' : Json} (h : R j j') : Member R (name, j) (name, j')

/-- The same document, with the members of its objects in any order. -/
inductive Reordered : Json → Json → Prop
  | null : Reordered .null .null
  | bool (b : Bool) : Reordered (.bool b) (.bool b)
  | num (n : Int) : Reordered (.num n) (.num n)
  | str (s : String) : Reordered (.str s) (.str s)
  | arr {l l' : List Json} (h : List.Forall₂ Reordered l l') : Reordered (.arr l) (.arr l')
  | obj {l l' l'' : List (String × Json)} (h : List.Forall₂ (Member Reordered) l l')
      (hperm : l'.Perm l'') : Reordered (.obj l) (.obj l'')

mutual

/-- A document in its own order. -/
theorem Reordered.refl : ∀ j : Json, Reordered j j
  | .null => .null
  | .bool b => .bool b
  | .num n => .num n
  | .str s => .str s
  | .arr l => .arr (reordered_list l)
  | .obj l => .obj (reordered_members l) (List.Perm.refl l)

theorem reordered_list : ∀ l : List Json, List.Forall₂ Reordered l l
  | [] => .nil
  | j :: l => .cons (Reordered.refl j) (reordered_list l)

theorem reordered_members : ∀ l : List (String × Json), List.Forall₂ (Member Reordered) l l
  | [] => .nil
  | (_, j) :: l => .cons (.mk (Reordered.refl j)) (reordered_members l)

end

/-! ### Looking members up -/

section

variable {R : Json → Json → Prop} {l l' l'' : List (String × Json)} {name : String}

theorem names_of_members (h : List.Forall₂ (Member R) l l') :
    l.map Prod.fst = l'.map Prod.fst := by
  induction h with
  | nil => rfl
  | cons hm _ ih =>
      obtain ⟨h⟩ := hm
      rw [List.map_cons, List.map_cons, ih]

theorem lookup_of_members (h : List.Forall₂ (Member R) l l') :
    Option.Rel R (l.lookup name) (l'.lookup name) := by
  induction h with
  | nil => exact Option.Rel.none
  | cons hm _ ih =>
      obtain ⟨h⟩ := hm
      rw [List.lookup_cons, List.lookup_cons]
      split
      · exact Option.Rel.some h
      · exact ih

/-- Where names are not repeated, a lookup finds the member there is. -/
theorem lookup_iff_mem (hnames : (l.map Prod.fst).Nodup) {j : Json} :
    l.lookup name = some j ↔ (name, j) ∈ l := by
  induction l generalizing j with
  | nil => simp
  | cons m l ih =>
      obtain ⟨name', j'⟩ := m
      rw [List.map_cons, List.nodup_cons] at hnames
      rw [List.lookup_cons, List.mem_cons, ← ih hnames.2]
      by_cases hname : name = name'
      · subst hname
        have hnot : l.lookup name ≠ some j := by
          intro hj
          exact hnames.1 (List.mem_map.mpr ⟨_, (ih hnames.2).mp hj, rfl⟩)
        simp [hnot, eq_comm]
      · have hne : (name == name') = false := by simpa using hname
        simp [hne, hname]

theorem lookup_of_perm (hperm : l.Perm l') (hnames : (l.map Prod.fst).Nodup) :
    l.lookup name = l'.lookup name := by
  have hnames' : (l'.map Prod.fst).Nodup := (hperm.map Prod.fst).nodup_iff.mp hnames
  ext j
  rw [lookup_iff_mem hnames, lookup_iff_mem hnames', hperm.mem_iff]

/-- In whatever order the members come, each name has related values. -/
theorem lookup_reordered (h : List.Forall₂ (Member R) l l') (hperm : l'.Perm l'')
    (hnames : (l.map Prod.fst).Nodup) : Option.Rel R (l.lookup name) (l''.lookup name) := by
  rw [← lookup_of_perm hperm (names_of_members h ▸ hnames)]
  exact lookup_of_members h

theorem members_zip {js js' : List Json} (h : List.Forall₂ R js js') (names : List String) :
    List.Forall₂ (Member R) (names.zip js) (names.zip js') := by
  induction names generalizing js js' with
  | nil => exact List.Forall₂.nil
  | cons name names ih =>
      cases h with
      | nil => exact List.Forall₂.nil
      | cons hj hjs => exact List.Forall₂.cons (.mk hj) (ih hjs)

end

/-- The members a struct is read from are found alike. -/
def Alike (names : List String) (l l' : List (String × Json)) : Prop :=
  ∀ name ∈ names, Option.Rel Reordered (l.lookup name) (l'.lookup name)

theorem members_reordered (names : List String) {j j' : Json} (h : Reordered j j') :
    Option.Rel (Alike names) (Fields.members names j) (Fields.members names j') := by
  cases h with
  | null | bool | num | str => exact Option.Rel.none
  | @arr js js' h =>
      unfold Fields.members
      simp only [h.length_eq]
      split
      · exact Option.Rel.some fun name _ => lookup_of_members (members_zip h names)
      · exact Option.Rel.none
  | @obj l l' l'' h hperm =>
      have hknown : List.Forall₂ (Member Reordered) (l.filter fun m => m.1 ∈ names)
          (l'.filter fun m => m.1 ∈ names) := by
        refine List.rel_filter (fun m m' hm => ?_) h
        obtain ⟨-⟩ := hm
        exact Iff.rfl
      have hperm' := hperm.filter fun m => decide (m.1 ∈ names)
      have hnodup := (hperm'.map Prod.fst).nodup_iff
      rw [← names_of_members hknown] at hnodup
      unfold Fields.members
      simp only
      by_cases hnames : ((l.filter fun m => m.1 ∈ names).map Prod.fst).Nodup
      · rw [if_pos hnames, if_pos (hnodup.mp hnames)]
        exact Option.Rel.some fun name _ => lookup_reordered hknown hperm' hnames
      · rw [if_neg hnames, if_neg fun h => hnames (hnodup.mpr h)]
        exact Option.Rel.none

/-! ### Mirrors -/

/-- What is read does not depend on the order of members. -/
def Mirror.Orderless (m : Mirror α) : Prop :=
  ∀ j j' : Json, Reordered j j' → m.deserialize j = m.deserialize j'

/-- Related members are read as the same. -/
def Fields.Orderless (fs : Fields σ α) : Prop :=
  ∀ l l' : List (String × Json), Alike fs.names l l' → fs.deserialize l = fs.deserialize l'

/-- The content of a variant, if it has any, is read without regard to order. -/
def ReadsOrderless (read : Option Json → Option α) : Prop :=
  ∀ o o' : Option Json, Option.Rel Reordered o o' → read o = read o'

namespace Mirror

theorem orderless_bool : bool.Orderless := by
  intro j j' h
  cases h <;> rfl

theorem orderless_string : string.Orderless := by
  intro j j' h
  cases h <;> rfl

theorem orderless_integer (toInt : α → Int) (tryFrom : Int → Option α) :
    (integer toInt tryFrom).Orderless := by
  intro j j' h
  cases h <;> rfl

theorem orderless_text (display : α → Option String) (parse : String → Option α) :
    (text display parse).Orderless := by
  intro j j' h
  cases h <;> rfl

theorem Orderless.newtype {get : α → β} {mk : β → α} {m : Mirror β} (hm : m.Orderless) :
    (newtype get mk m).Orderless := by
  intro j j' h
  exact congrArg (Option.map mk) (hm j j' h)

theorem Orderless.option {m : Mirror α} (hm : m.Orderless) : m.option.Orderless := by
  intro j j' h
  have heq := congrArg (Option.map some) (hm j j' h)
  cases h <;> first | rfl | exact heq

theorem mapM_orderless {m : Mirror α} (hm : m.Orderless) {js js' : List Json}
    (h : List.Forall₂ Reordered js js') : js.mapM m.deserialize = js'.mapM m.deserialize := by
  induction h with
  | nil => rfl
  | cons hj _ ih => rw [List.mapM_cons, List.mapM_cons, hm _ _ hj, ih]

theorem Orderless.list {m : Mirror α} (hm : m.Orderless) : m.list.Orderless := by
  intro j j' h
  cases h with
  | null | bool | num | str | obj => rfl
  | arr h => exact mapM_orderless hm h

theorem Orderless.pair {m : Mirror α} {n : Mirror β} (hm : m.Orderless) (hn : n.Orderless) :
    (m.pair n).Orderless := by
  intro j j' h
  cases h with
  | null | bool | num | str | obj => rfl
  | arr h =>
      rcases h with _ | ⟨hj, _ | ⟨hk, _ | ⟨_, _⟩⟩⟩
      · rfl
      · rfl
      · show (m.deserialize _).bind (fun a => (n.deserialize _).bind fun b => some (a, b)) = _
        rw [hm _ _ hj, hn _ _ hk]
        rfl
      · rfl

end Mirror

namespace Fields

theorem orderless_build (a : α) : (build a : Fields σ α).Orderless := fun _ _ _ => rfl

/-- A field is looked up behind those before it. -/
theorem Orderless.before {fs : Fields σ γ} (hfs : fs.Orderless) {name : String}
    {l l' : List (String × Json)} (h : Alike (fs.names ++ [name]) l l') :
    fs.deserialize l = fs.deserialize l' ∧
      Option.Rel Reordered (l.lookup name) (l'.lookup name) :=
  ⟨hfs l l' fun n hn => h n (List.mem_append_left _ hn),
    h name (List.mem_append_right _ (List.mem_singleton_self name))⟩

theorem bind_of_rel {o o' : Option Json} (h : Option.Rel Reordered o o') {g : Json → Option α}
    (hg : ∀ {j j'}, Reordered j j' → g j = g j') : o.bind g = o'.bind g := by
  cases h with
  | none => rfl
  | some hj => exact hg hj

theorem Orderless.field {fs : Fields σ (β → α)} (hfs : fs.Orderless) {name : String}
    {get : σ → β} {m : Mirror β} (hm : m.Orderless) : (fs.field name get m).Orderless := by
  intro l l' h
  obtain ⟨hbefore, hlookup⟩ := hfs.before h
  unfold Fields.field
  simp only [hbefore]
  refine congrArg _ (funext fun f => ?_)
  exact bind_of_rel hlookup fun hj => by rw [hm _ _ hj]

theorem Orderless.optional {fs : Fields σ (Option β → α)} (hfs : fs.Orderless) {name : String}
    {get : σ → Option β} {m : Mirror β} (hm : m.Orderless) :
    (fs.optional name get m).Orderless := by
  intro l l' h
  obtain ⟨hbefore, hlookup⟩ := hfs.before h
  unfold Fields.optional
  simp only [hbefore]
  refine congrArg _ (funext fun f => ?_)
  generalize l.lookup name = o at hlookup ⊢
  generalize l'.lookup name = o' at hlookup ⊢
  cases hlookup with
  | none => rfl
  | some hj =>
      simp only
      rw [hm.option _ _ hj]

/-- **A struct is read alike in any order of its members.** -/
theorem Orderless.struct {fs : Fields σ σ} (hfs : fs.Orderless) : (Mirror.struct fs).Orderless := by
  intro j j' h
  show (members fs.names j).bind fs.deserialize = (members fs.names j').bind fs.deserialize
  have hmembers := members_reordered fs.names h
  generalize members fs.names j = o at hmembers ⊢
  generalize members fs.names j' = o' at hmembers ⊢
  cases hmembers with
  | none => rfl
  | some hl => exact hfs _ _ hl

end Fields

/-! ### Enumerations -/

theorem readsOrderless_none : ReadsOrderless fun _ => (none : Option α) :=
  fun _ _ _ => rfl

theorem readsOrderless_unit (a : α) : ReadsOrderless (readUnit a) := by
  intro o o' h
  cases h with
  | none => rfl
  | some h => cases h <;> rfl

theorem Mirror.Orderless.readTagged {m : Mirror β} (hm : m.Orderless) {f : β → α} :
    ReadsOrderless (readTagged m f) := by
  intro o o' h
  cases h with
  | none => rfl
  | some h => exact congrArg (Option.map f) (hm _ _ h)

/-- An object has one member in every order, or in none. -/
theorem Mirror.orderless_enum {write : α → Option Json} {read : String → Option Json → Option α}
    (hread : ∀ tag, ReadsOrderless (read tag)) : (Mirror.enum write read).Orderless := by
  intro j j' h
  cases h with
  | null | bool | num | str | arr => rfl
  | @obj l l' l'' h hperm =>
      rcases h with _ | ⟨⟨hj⟩, hrest⟩
      · obtain rfl := hperm.nil_eq
        rfl
      · rcases hrest with _ | ⟨_, _⟩
        · obtain rfl := List.singleton_perm.mp hperm
          exact hread _ _ _ (Option.Rel.some hj)
        · have hlen := hperm.length_eq
          rcases l'' with _ | ⟨m, _ | ⟨m', l''⟩⟩
          · simp at hlen
          · simp at hlen
          · rfl

end Serde
