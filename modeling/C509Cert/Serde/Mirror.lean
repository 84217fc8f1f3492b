/-
Mirrors of types in JSON.

A `Mirror` is the pair of functions by which a type is written as a JSON document and
read from one.  The two are given separately wherever a type is described by hand, so that
nothing but a proof says that they belong together: `Inverts`, which has one rule for each
way of putting mirrors together.

Structs are described field by field.  `Fields σ α` writes members taken from a value of
type `σ`, and reads what builds an `α`; applying a constructor to one more field is one
more step, and a struct is the description that has arrived at its own type.  Enumerations
are externally tagged: a unit variant is its name, any other an object whose one member is
the name and the content.
-/
import Mathlib.Data.List.Nodup

namespace Serde

variable {α β γ σ : Type}

/-- A JSON document, as the tree its text denotes.  Its numbers are integers: no type
mirrored here reads any other. -/
inductive Json
  | null
  | bool (b : Bool)
  | num (n : Int)
  | str (s : String)
  | arr (l : List Json)
  | obj (l : List (String × Json))

/-- The two directions of a type's mirror; either may fail. -/
structure Mirror (α : Type) where
  serialize : α → Option Json
  deserialize : Json → Option α

namespace Mirror

/-- What is serialized is deserialized as the value it came from. -/
def Inverts (m : Mirror α) : Prop :=
  ∀ (a : α) (j : Json), m.serialize a = some j → m.deserialize j = some a

/-! ### Plain values -/

def bool : Mirror Bool where
  serialize b := some (.bool b)
  deserialize
    | .bool b => some b
    | _ => none

def string : Mirror String where
  serialize s := some (.str s)
  deserialize
    | .str s => some s
    | _ => none

/-- An integer type, by its value and the values that fit. -/
def integer (toInt : α → Int) (tryFrom : Int → Option α) : Mirror α where
  serialize a := some (.num (toInt a))
  deserialize
    | .num n => tryFrom n
    | _ => none

/-- A type that is mirrored as a text. -/
def text (display : α → Option String) (parse : String → Option α) : Mirror α where
  serialize a := (display a).map .str
  deserialize
    | .str s => parse s
    | _ => none

theorem inverts_bool : bool.Inverts := by
  rintro b _ ⟨⟩
  rfl

theorem inverts_string : string.Inverts := by
  rintro s _ ⟨⟩
  rfl

theorem inverts_integer {toInt : α → Int} {tryFrom : Int → Option α}
    (h : ∀ a, tryFrom (toInt a) = some a) : (integer toInt tryFrom).Inverts := by
  rintro a _ ⟨⟩
  exact h a

theorem inverts_text {display : α → Option String} {parse : String → Option α}
    (h : ∀ {a s}, display a = some s → parse s = some a) : (text display parse).Inverts := by
  intro a j hj
  obtain ⟨s, hs, rfl⟩ := Option.map_eq_some_iff.mp hj
  exact h hs

/-! ### Wrappers, options, sequences -/

/-- A newtype struct, mirrored as what it wraps. -/
def newtype (get : α → β) (mk : β → α) (m : Mirror β) : Mirror α where
  serialize a := m.serialize (get a)
  deserialize j := (m.deserialize j).map mk

/-- An optional value, `null` where there is none. -/
def option (m : Mirror α) : Mirror (Option α) where
  serialize
    | none => some .null
    | some a => m.serialize a
  deserialize
    | .null => some none
    | j => (m.deserialize j).map some

/-- A sequence, in an array. -/
def list (m : Mirror α) : Mirror (List α) where
  serialize l := (l.mapM m.serialize).map .arr
  deserialize
    | .arr js => js.mapM m.deserialize
    | _ => none

/-- A pair, as an array of two. -/
def pair (m : Mirror α) (n : Mirror β) : Mirror (α × β) where
  serialize p := do
    let j ← m.serialize p.1
    let k ← n.serialize p.2
    return .arr [j, k]
  deserialize
    | .arr [j, k] => do
        let a ← m.deserialize j
        let b ← n.deserialize k
        return (a, b)
    | _ => none

theorem Inverts.newtype {get : α → β} {mk : β → α} {m : Mirror β} (hm : m.Inverts)
    (h : ∀ a, mk (get a) = a) : (newtype get mk m).Inverts := by
  intro a j hj
  have hback : m.deserialize j = some (get a) := hm _ _ hj
  show (m.deserialize j).map mk = some a
  rw [hback, Option.map_some, h]

/-- An option is told from its value by `null`. -/
theorem Inverts.option {m : Mirror α} (hm : m.Inverts)
    (hnull : ∀ a, m.serialize a ≠ some .null) : m.option.Inverts := by
  intro o j hj
  cases o with
  | none =>
      cases hj
      rfl
  | some a =>
      have hback : m.deserialize j = some a := hm a j hj
      cases j with
      | null => exact absurd hj (hnull a)
      | _ =>
          show (m.deserialize _).map some = some (some a)
          rw [hback, Option.map_some]

theorem mapM_inverts {m : Mirror α} (hm : m.Inverts) :
    ∀ {l : List α} {js : List Json}, l.mapM m.serialize = some js →
      js.mapM m.deserialize = some l := by
  intro l
  induction l with
  | nil =>
      rintro js h
      cases h
      rfl
  | cons a l ih =>
      intro js h
      rw [List.mapM_cons] at h
      obtain ⟨j, hj, h⟩ := Option.bind_eq_some_iff.mp h
      obtain ⟨js', hjs, h⟩ := Option.bind_eq_some_iff.mp h
      cases h
      rw [List.mapM_cons, hm a j hj, ih hjs]
      rfl

theorem Inverts.list {m : Mirror α} (hm : m.Inverts) : m.list.Inverts := by
  intro l j hj
  obtain ⟨js, hjs, rfl⟩ := Option.map_eq_some_iff.mp hj
  exact mapM_inverts hm hjs

theorem Inverts.pair {m : Mirror α} {n : Mirror β} (hm : m.Inverts) (hn : n.Inverts) :
    (m.pair n).Inverts := by
  rintro ⟨a, b⟩ _ h
  obtain ⟨j, hj, h⟩ := Option.bind_eq_some_iff.mp h
  obtain ⟨k, hk, h⟩ := Option.bind_eq_some_iff.mp h
  cases h
  show (m.deserialize j).bind (fun a => (n.deserialize k).bind fun b => some (a, b)) = _
  rw [hm a j hj, hn b k hk]
  rfl

end Mirror

/-! ### Structs -/

/-- The fields of a struct of type `σ`, with which an `α` is built. -/
structure Fields (σ α : Type) where
  names : List String
  /-- the members, in the order of the names -/
  serialize : σ → Option (List (String × Json))
  /-- the value, from members of any order -/
  deserialize : List (String × Json) → Option α

namespace Fields

/-- A constructor, before its first field. -/
def build (a : α) : Fields σ α where
  names := []
  serialize _ := some []
  deserialize _ := some a

/-- One more field. -/
def field (fs : Fields σ (β → α)) (name : String) (get : σ → β) (m : Mirror β) :
    Fields σ α where
  names := fs.names ++ [name]
  serialize s := do
    let l ← fs.serialize s
    let j ← m.serialize (get s)
    return l ++ [(name, j)]
  deserialize l := do
    let f ← fs.deserialize l
    let j ← l.lookup name
    let b ← m.deserialize j
    return f b

/-- One more field, of an optional type: `none` where it is missing. -/
def optional (fs : Fields σ (Option β → α)) (name : String) (get : σ → Option β)
    (m : Mirror β) : Fields σ α where
  names := fs.names ++ [name]
  serialize s := do
    let l ← fs.serialize s
    let j ← m.option.serialize (get s)
    return l ++ [(name, j)]
  deserialize l := do
    let f ← fs.deserialize l
    match l.lookup name with
    | none => return f none
    | some j => do
        let b ← m.option.deserialize j
        return f b

/-- No two fields have one name. -/
def distinct (fs : Fields σ α) : Bool := decide fs.names.Nodup

/-- From the members it wrote, among others, the description reads what `v` says. -/
def Inverts (fs : Fields σ α) (v : σ → α) : Prop :=
  fs.names.Nodup → ∀ {s : σ} {l : List (String × Json)}, fs.serialize s = some l →
    l.map Prod.fst = fs.names ∧
      ∀ l' : List (String × Json), (∀ name ∈ fs.names, l'.lookup name = l.lookup name) →
        fs.deserialize l' = some (v s)

theorem lookup_append_of_not_mem {l : List (String × Json)} {name : String}
    (h : name ∉ l.map Prod.fst) (j : Json) : (l ++ [(name, j)]).lookup name = some j := by
  have hnone : l.lookup name = none := by
    rw [List.lookup_eq_none_iff]
    intro p hp
    rw [bne_iff_ne]
    rintro rfl
    exact h (List.mem_map_of_mem hp)
  rw [List.lookup_append, hnone]
  simp

theorem lookup_append_of_ne {l : List (String × Json)} {name name' : String} (h : name' ≠ name)
    (j : Json) : (l ++ [(name, j)]).lookup name' = l.lookup name' := by
  have hlast : [(name, j)].lookup name' = none := by
    rw [List.lookup_eq_none_iff]
    simpa using h
  rw [List.lookup_append, hlast, Option.or_none]

theorem inverts_build (a : α) : (build a : Fields σ α).Inverts fun _ => a := by
  rintro - s l ⟨⟩
  exact ⟨rfl, fun _ _ => rfl⟩

/-- What both rules for a field need: the members before it, and the member it added. -/
theorem Inverts.extend {fs : Fields σ γ} {v : σ → γ} (hfs : fs.Inverts v) {name : String}
    (hnames : (fs.names ++ [name]).Nodup) {s : σ} {l : List (String × Json)} {j : Json}
    (hl : fs.serialize s = some l) :
    (l ++ [(name, j)]).map Prod.fst = fs.names ++ [name] ∧
      ∀ l' : List (String × Json),
        (∀ n ∈ fs.names ++ [name], l'.lookup n = (l ++ [(name, j)]).lookup n) →
          fs.deserialize l' = some (v s) ∧ l'.lookup name = some j := by
  rw [List.nodup_append] at hnames
  obtain ⟨hnodup, -, hne⟩ := hnames
  obtain ⟨hmap, hread⟩ := hfs hnodup hl
  refine ⟨by rw [List.map_append, hmap]; rfl, fun l' hl' => ⟨hread l' fun n hn => ?_, ?_⟩⟩
  · rw [hl' n (List.mem_append_left _ hn)]
    exact lookup_append_of_ne (hne n hn name (List.mem_singleton_self _)) j
  · rw [hl' name (List.mem_append_right _ (List.mem_singleton_self _))]
    refine lookup_append_of_not_mem ?_ j
    rw [hmap]
    exact fun hn => hne name hn name (List.mem_singleton_self _) rfl

theorem Inverts.field {fs : Fields σ (β → α)} {v : σ → β → α} (hfs : fs.Inverts v)
    {name : String} {get : σ → β} {m : Mirror β} (hm : m.Inverts) :
    (fs.field name get m).Inverts fun s => v s (get s) := by
  intro hnames s _ h
  obtain ⟨l, hl, h⟩ := Option.bind_eq_some_iff.mp h
  obtain ⟨j, hj, h⟩ := Option.bind_eq_some_iff.mp h
  cases h
  obtain ⟨hmap, hread⟩ := hfs.extend hnames (j := j) hl
  refine ⟨hmap, fun l' hl' => ?_⟩
  obtain ⟨hbuilt, hlookup⟩ := hread l' hl'
  show (fs.deserialize l').bind (fun f => (l'.lookup name).bind fun j =>
    (m.deserialize j).bind fun b => some (f b)) = _
  rw [hbuilt, hlookup, Option.bind_some, Option.bind_some, hm _ _ hj]
  rfl

theorem Inverts.optional {fs : Fields σ (Option β → α)} {v : σ → Option β → α}
    (hfs : fs.Inverts v) {name : String} {get : σ → Option β} {m : Mirror β} (hm : m.Inverts)
    (hnull : ∀ b, m.serialize b ≠ some .null) :
    (fs.optional name get m).Inverts fun s => v s (get s) := by
  intro hnames s _ h
  obtain ⟨l, hl, h⟩ := Option.bind_eq_some_iff.mp h
  obtain ⟨j, hj, h⟩ := Option.bind_eq_some_iff.mp h
  cases h
  obtain ⟨hmap, hread⟩ := hfs.extend hnames (j := j) hl
  refine ⟨hmap, fun l' hl' => ?_⟩
  obtain ⟨hbuilt, hlookup⟩ := hread l' hl'
  unfold Fields.optional
  simp only [hbuilt, hlookup, Option.bind_eq_bind, Option.bind_some, hm.option hnull _ _ hj]
  rfl

/-- The members a struct is read from: those of an object that it has a field for, each at
most once, or the elements of an array of as many. -/
def members (names : List String) : Json → Option (List (String × Json))
  | .obj l =>
      let known := l.filter fun m => m.1 ∈ names
      if (known.map Prod.fst).Nodup then some known else none
  | .arr js => if js.length = names.length then some (names.zip js) else none
  | _ => none

theorem members_obj {names : List String} (hnames : names.Nodup) {l : List (String × Json)}
    (hl : l.map Prod.fst = names) : members names (.obj l) = some l := by
  have hknown : l.filter (fun m => m.1 ∈ names) = l := by
    rw [List.filter_eq_self]
    intro m hm
    rw [decide_eq_true_eq, ← hl]
    exact List.mem_map_of_mem hm
  unfold members
  simp only [hknown, hl, if_pos hnames]

end Fields

/-- A struct. -/
def Mirror.struct (fs : Fields σ σ) : Mirror σ where
  serialize s := (fs.serialize s).map .obj
  deserialize j := (Fields.members fs.names j).bind fs.deserialize

/-- **A struct whose fields have different names is read back.** -/
theorem Fields.Inverts.struct {fs : Fields σ σ} {v : σ → σ} (hfs : fs.Inverts v)
    (hdistinct : fs.distinct = true) (hv : ∀ s, v s = s) : (Mirror.struct fs).Inverts := by
  have hnames : fs.names.Nodup := of_decide_eq_true hdistinct
  intro s j h
  obtain ⟨l, hl, rfl⟩ := Option.map_eq_some_iff.mp h
  obtain ⟨hmap, hread⟩ := hfs hnames hl
  show (Fields.members fs.names (.obj l)).bind fs.deserialize = some s
  rw [Fields.members_obj hnames hmap, Option.bind_some, hread l fun _ _ => rfl, hv]

/-! ### Enumerations -/

/-- The name of a variant and its content, if it has any. -/
def Json.variant : Json → Option (String × Option Json)
  | .str tag => some (tag, none)
  | .obj [(tag, content)] => some (tag, some content)
  | _ => none

/-- A variant without content, written. -/
def unit (tag : String) : Option Json := some (.str tag)

/-- A variant without content, read. -/
def readUnit (a : α) : Option Json → Option α
  | none | some .null => some a
  | some _ => none

/-- A variant with content, written. -/
def tagged (tag : String) (m : Mirror β) (b : β) : Option Json :=
  (m.serialize b).map fun j => .obj [(tag, j)]

/-- A variant with content, read. -/
def readTagged (m : Mirror β) (f : β → α) : Option Json → Option α
  | some j => (m.deserialize j).map f
  | none => none

/-- An enumeration, by how each variant is written and how each name is read. -/
def Mirror.enum (write : α → Option Json) (read : String → Option Json → Option α) :
    Mirror α where
  serialize := write
  deserialize j := do
    let (tag, content) ← j.variant
    read tag content

variable {write : α → Option Json} {read : String → Option Json → Option α}

theorem read_unit {tag : String} {a : α} {j : Json} (h : unit tag = some j)
    (hread : read tag = readUnit a) : (Mirror.enum write read).deserialize j = some a := by
  cases h
  show read tag none = some a
  rw [hread]
  rfl

/-- **A variant is read back where its name is read with the mirror it was written with.** -/
theorem read_tagged {tag : String} {m : Mirror β} (hm : m.Inverts) {f : β → α} {b : β} {j : Json}
    (h : tagged tag m b = some j) (hread : read tag = readTagged m f) :
    (Mirror.enum write read).deserialize j = some (f b) := by
  obtain ⟨k, hk, rfl⟩ := Option.map_eq_some_iff.mp h
  show read tag (some k) = some (f b)
  rw [hread, readTagged, hm _ _ hk, Option.map_some]

end Serde
