/-
What readers heed.

A reader heeds a document if every member of every object in it matters: some other value in
its place is read as well, to another result.  There is one rule for each kind of reader, so
what a reader heeds is found by following it down the document.

A struct is heeded field by field.  With all fields but one as they were read, the struct is a
reader of that field alone (its slice), and `Schema.Each` asks of every slice what is asked of
its field; an unknown member has a slice that never varies.
-/
import C509Cert.Serde.Reader
import Mathlib.Data.List.Basic

namespace Serde

namespace Reader

variable {α β γ : Type}

/-! ### Members of a document -/

/-- The documents that differ in the value of one member of one object. -/
inductive Place : (Value → Value) → Prop
  | here (pre : List (String × Value)) (name : String) (post : List (String × Value)) :
      Place fun w => .object (pre ++ (name, w) :: post)
  | inObject (pre : List (String × Value)) (name : String) (post : List (String × Value))
      {plug : Value → Value} : Place plug →
      Place fun w => .object (pre ++ (name, plug w) :: post)
  | inArray (pre post : List Value) {plug : Value → Value} : Place plug →
      Place fun w => .array (pre ++ plug w :: post)

/-- Another value is read in place of this one, to another result. -/
def Varies (r : Reader α) (v : Value) : Prop := ∃ w a, r w = some a ∧ r v ≠ some a

/-- Every member of every object in a document matters to the reader. -/
def Heeds (r : Reader α) (v : Value) : Prop :=
  ∀ plug u, Place plug → plug u = v → Varies (fun w => r (plug w)) u

/-- A reader that finds two results finds another for any value. -/
theorem varies_of_two {r : Reader α} {w₁ w₂ : Value} {a₁ a₂ : α} (h₁ : r w₁ = some a₁)
    (h₂ : r w₂ = some a₂) (hne : a₁ ≠ a₂) (v : Value) : Varies r v := by
  by_cases h : r v = some a₁
  · exact ⟨w₂, a₂, h₂, fun h' => hne (Option.some.inj (h.symm.trans h'))⟩
  · exact ⟨w₁, a₁, h₁, h⟩

/-- A value all others are read like does not matter. -/
theorem not_varies {r : Reader α} {v : Value} (h : ∀ w a, r w = some a → r v = some a) :
    ¬ Varies r v := by
  rintro ⟨w, a, hw, hne⟩
  exact hne (h w a hw)

theorem varies_map {r : Reader α} {f : α → β} (hf : Function.Injective f) {v : Value} :
    Varies (fun w => (r w).map f) v ↔ Varies r v := by
  constructor
  · rintro ⟨w, b, hw, hne⟩
    obtain ⟨a, ha, rfl⟩ := Option.map_eq_some_iff.mp hw
    exact ⟨w, a, ha, fun hv => hne (congrArg (Option.map f) hv)⟩
  · rintro ⟨w, a, hw, hne⟩
    refine ⟨w, f a, congrArg (Option.map f) hw, fun hv => hne ?_⟩
    obtain ⟨a', ha', heq⟩ := Option.map_eq_some_iff.mp hv
    rw [ha', hf heq]

/-- What is built from a result without loss is heeded as the result is. -/
theorem heeds_map {r : Reader α} {f : α → β} (hf : Function.Injective f) {v : Value} :
    Heeds (fun w => (r w).map f) v ↔ Heeds r v :=
  ⟨fun h plug u hp hu => (varies_map hf).mp (h plug u hp hu),
    fun h plug u hp hu => (varies_map hf).mpr (h plug u hp hu)⟩

/-! ### Documents without members -/

theorem Place.isContainer {plug : Value → Value} (h : Place plug) (w : Value) :
    (plug w).IsContainer := by
  cases h with
  | here pre name post => trivial
  | inObject pre name post h => trivial
  | inArray pre post h => trivial

/-- No object in the document has a member. -/
def MemberFree (v : Value) : Prop := ∀ plug u, Place plug → plug u ≠ v

theorem memberFree_of_scalar {v : Value} (h : ¬ v.IsContainer) : MemberFree v := by
  rintro plug u hp rfl
  exact h (hp.isContainer u)

theorem memberFree_array {l : List Value} (h : ∀ x ∈ l, MemberFree x) : MemberFree (.array l) := by
  intro plug u hp heq
  cases hp with
  | here pre name post => cases heq
  | inObject pre name post hp => cases heq
  | inArray pre post hp =>
      cases heq
      exact h _ (by simp) _ u hp rfl

theorem MemberFree.heeds {v : Value} (h : MemberFree v) (r : Reader α) : Heeds r v :=
  fun plug u hp hu => absurd hu (h plug u hp)

/-- What the reader reads has no members. -/
def Plain (r : Reader α) : Prop := ∀ v a, r v = some a → MemberFree v

theorem plain_bool : Plain bool := by
  intro v b h
  cases v with
  | bool b => exact memberFree_of_scalar id
  | _ => cases h

theorem plain_string : Plain string := by
  intro v s h
  cases v with
  | string s => exact memberFree_of_scalar id
  | _ => cases h

theorem plain_integer (tryFrom : Int → Option α) : Plain (integer tryFrom) := by
  intro v a h
  cases v with
  | integer n => exact memberFree_of_scalar id
  | _ => cases h

theorem Plain.option {r : Reader α} (hr : Plain r) : Plain r.option := by
  intro v o h
  by_cases hnull : v = .null
  · subst hnull
    exact memberFree_of_scalar id
  · rw [option_of_ne_null hnull] at h
    obtain ⟨a, ha, -⟩ := Option.map_eq_some_iff.mp h
    exact hr v a ha

theorem mapM_some_of_mem {r : Reader α} : ∀ {l : List Value} {as : List α}, l.mapM r = some as →
    ∀ x ∈ l, ∃ a, r x = some a := by
  intro l
  induction l with
  | nil => exact fun _ => nofun
  | cons y l ih =>
      intro as h x hx
      rw [List.mapM_cons] at h
      obtain ⟨a, ha, h⟩ := Option.bind_eq_some_iff.mp h
      obtain ⟨as', has, -⟩ := Option.bind_eq_some_iff.mp h
      rcases List.mem_cons.mp hx with rfl | hx
      · exact ⟨a, ha⟩
      · exact ih has x hx

theorem Plain.list {r : Reader α} (hr : Plain r) : Plain r.list := by
  intro v as h
  cases v with
  | array l =>
      refine memberFree_array fun x hx => ?_
      obtain ⟨a, ha⟩ := mapM_some_of_mem h x hx
      exact hr x a ha
  | _ => cases h

/-! ### Objects, arrays, sequences -/

/-- The members of an object, and the members in their values. -/
theorem heeds_object {r : Reader α} {ms : List (String × Value)} : Heeds r (.object ms) ↔
    ∀ pre name v post, ms = pre ++ (name, v) :: post →
      Varies (fun w => r (.object (pre ++ (name, w) :: post))) v ∧
        Heeds (fun w => r (.object (pre ++ (name, w) :: post))) v := by
  constructor
  · rintro h pre name v post rfl
    refine ⟨h _ v (.here pre name post) rfl, ?_⟩
    rintro plug u hp rfl
    exact h _ u (.inObject pre name post hp) rfl
  · intro h plug u hp heq
    cases hp with
    | here pre name post =>
        cases heq
        exact (h pre name u post rfl).1
    | inObject pre name post hp =>
        cases heq
        exact (h pre name _ post rfl).2 _ u hp rfl
    | inArray pre post hp => cases heq

theorem heeds_array {r : Reader α} {l : List Value} : Heeds r (.array l) ↔
    ∀ pre v post, l = pre ++ v :: post → Heeds (fun w => r (.array (pre ++ w :: post))) v := by
  constructor
  · rintro h pre v post rfl plug u hp rfl
    exact h _ u (.inArray pre post hp) rfl
  · intro h plug u hp heq
    cases hp with
    | here pre name post => cases heq
    | inObject pre name post hp => cases heq
    | inArray pre post hp =>
        cases heq
        exact h pre _ post rfl _ u hp rfl

/-- Readers that agree on containers heed the same documents. -/
theorem heeds_congr {r r' : Reader α} (h : ∀ w, w.IsContainer → r w = r' w) {v : Value} :
    Heeds r v ↔ Heeds r' v := by
  have hcongr : ∀ {plug u}, Place plug → (Varies (fun w => r (plug w)) u ↔
      Varies (fun w => r' (plug w)) u) := by
    intro plug u hp
    rw [show (fun w => r (plug w)) = fun w => r' (plug w) from
      funext fun w => h _ (hp.isContainer w)]
  exact ⟨fun hv plug u hp hu => (hcongr hp).mp (hv plug u hp hu),
    fun hv plug u hp hu => (hcongr hp).mpr (hv plug u hp hu)⟩

/-- What is done to an optional value is done to what it is read from. -/
theorem option_map {r : Reader α} {g : α → β} (v : Value) :
    ((option r v).bind fun o => some (o.map g)) =
      option (fun w => (r w).bind fun a => some (g a)) v := by
  by_cases hnull : v = .null
  · subst hnull
    rfl
  · rw [option_of_ne_null hnull, option_of_ne_null hnull]
    cases r v with
    | none => rfl
    | some a => rfl

theorem heeds_option {r : Reader α} {v : Value} : Heeds r.option v ↔ Heeds r v := by
  have hagree : ∀ w : Value, w.IsContainer → r.option w = (r w).map some := by
    rintro w hw
    refine option_of_ne_null ?_
    rintro rfl
    exact hw
  rw [heeds_congr hagree]
  exact heeds_map fun _ _ h => Option.some.inj h

/-- An element of a sequence, with the others read. -/
theorem mapM_append_cons {r : Reader α} {pre post : List Value} {xs ys : List α}
    (hpre : pre.mapM r = some xs) (hpost : post.mapM r = some ys) (w : Value) :
    (pre ++ w :: post).mapM r = (r w).map fun a => xs ++ a :: ys := by
  rw [List.mapM_append, hpre, List.mapM_cons, hpost]
  cases r w with
  | none => rfl
  | some a => rfl

/-- What is done to the elements of a sequence is done to what they are read from. -/
theorem list_bind {r : Reader α} {g : α → Option β} (v : Value) :
    (r.list v).bind (fun as => as.mapM g) = list (fun w => (r w).bind g) v := by
  cases v with
  | array l =>
      show (l.mapM r).bind (fun as => as.mapM g) = l.mapM fun w => (r w).bind g
      induction l with
      | nil => rfl
      | cons x l ih =>
          rw [List.mapM_cons, List.mapM_cons, ← ih]
          cases r x with
          | none => rfl
          | some a =>
              cases l.mapM r with
              | none => cases h : g a <;> simp [h]
              | some as => simp [List.mapM_cons]
  | _ => rfl

/-- **A sequence is heeded element by element.** -/
theorem heeds_list {r : Reader α} {l : List Value} {as : List α} (h : l.mapM r = some as) :
    Heeds r.list (.array l) ↔ ∀ x ∈ l, Heeds r x := by
  have hslice : ∀ pre v post, l = pre ++ v :: post →
      (Heeds (fun w => r.list (.array (pre ++ w :: post))) v ↔ Heeds r v) := by
    rintro pre v post rfl
    rw [List.mapM_append] at h
    obtain ⟨xs, hxs, h⟩ := Option.bind_eq_some_iff.mp h
    obtain ⟨zs, hzs, -⟩ := Option.bind_eq_some_iff.mp h
    rw [List.mapM_cons] at hzs
    obtain ⟨a, -, hzs⟩ := Option.bind_eq_some_iff.mp hzs
    obtain ⟨ys, hys, -⟩ := Option.bind_eq_some_iff.mp hzs
    rw [show (fun w => r.list (.array (pre ++ w :: post))) =
      fun w => (r w).map fun a => xs ++ a :: ys from funext (mapM_append_cons hxs hys)]
    exact heeds_map fun a b hab => by simpa using hab
  rw [heeds_array]
  constructor
  · intro hall x hx
    obtain ⟨pre, post, rfl⟩ := List.append_of_mem hx
    exact (hslice pre x post rfl).mp (hall pre x post rfl)
  · rintro hall pre v post rfl
    exact (hslice pre v post rfl).mpr (hall v (by simp))

/-! ### Fields -/

namespace Schema

variable {ms : List (String × Value)}

theorem field_congr {ms' : List (String × Value)} {name : String} {r : Reader α}
    {default : Option α} (h : ms.lookup name = ms'.lookup name) :
    field ms name r default = field ms' name r default := by
  unfold field
  rw [h]

theorem field_eq_some {name : String} {r : Reader α} {default : Option α} {x : α} {v : Value}
    (h : field ms name r default = some x) (hv : ms.lookup name = some v) : r v = some x := by
  rwa [field, hv] at h

theorem read_congr {ms' : List (String × Value)} : ∀ {α : Type} {fields : Schema α},
    (∀ name ∈ fields.names, ms.lookup name = ms'.lookup name) → fields.read ms = fields.read ms'
  | _, nil, _ => rfl
  | _, cons name r default rest, h => by
      have hrest : rest.read ms = rest.read ms' :=
        read_congr fun n hn => h n (List.mem_cons_of_mem _ hn)
      rw [read, read, hrest, field_congr (h name (by simp [names]))]

/-- What is asked of each field that is there, with the others as they were read: of the reader
of its value, up to what is built from all of them. -/
def Each (P : Reader β → Value → Prop) (ms : List (String × Value)) :
    ∀ {α : Type}, Schema α → (α → Option β) → α → Prop
  | _, nil, _, _ => True
  | _, cons name r _ rest, f, (x, y) =>
      (∀ v, ms.lookup name = some v → r v = some x → P (fun w => (r w).bind fun a => f (a, y)) v) ∧
        rest.Each P ms (fun b => f (x, b)) y

/-- No field is there twice. -/
def Once (ms : List (String × Value)) (fields : Schema α) : Prop :=
  ∀ pre name v post, ms = pre ++ (name, v) :: post → name ∈ fields.names →
    ∀ m ∈ pre, m.1 ≠ name

theorem lookup_self {pre post : List (String × Value)} {name : String} {v : Value}
    (h : ∀ m ∈ pre, m.1 ≠ name) : (pre ++ (name, v) :: post).lookup name = some v :=
  List.lookup_eq_some_iff.mpr ⟨pre, post, rfl, fun m hm => by simpa using (h m hm).symm⟩

theorem lookup_other {pre post : List (String × Value)} {name name' : String} {v w : Value}
    (h : name' ≠ name) :
    (pre ++ (name, v) :: post).lookup name' = (pre ++ (name, w) :: post).lookup name' := by
  have hne : (name' == name) = false := by simpa using h
  rw [List.lookup_append, List.lookup_append, List.lookup_cons, List.lookup_cons, hne]

section

variable {n name : String} {r : Reader α} {default : Option α} {rest : Schema β} {x : α} {y : β}
  {pre post : List (String × Value)} {v : Value}

theorem read_cons : (cons n r default rest).read ms = some (x, y) ↔
    field ms n r default = some x ∧ rest.read ms = some y := by
  constructor
  · intro h
    obtain ⟨x', hx, h⟩ := Option.bind_eq_some_iff.mp h
    obtain ⟨y', hy, heq⟩ := Option.map_eq_some_iff.mp h
    cases heq
    exact ⟨hx, hy⟩
  · rintro ⟨hx, hy⟩
    rw [read, hx, hy]
    rfl

/-- With another value in a field, the others are read as before. -/
theorem read_self (hn : n ∉ rest.names) (hpre : ∀ m ∈ pre, m.1 ≠ n)
    (h : (cons n r default rest).read (pre ++ (n, v) :: post) = some (x, y)) :
    r v = some x ∧ ∀ w, (cons n r default rest).read (pre ++ (n, w) :: post) =
      (r w).map fun a => (a, y) := by
  obtain ⟨hx, hy⟩ := read_cons.mp h
  constructor
  · rwa [field, lookup_self hpre] at hx
  · intro w
    have hrest : rest.read (pre ++ (n, w) :: post) = some y := by
      refine (read_congr fun n' hn' => lookup_other ?_).trans hy
      rintro rfl
      exact hn hn'
    have hfield : field (pre ++ (n, w) :: post) n r default = r w := by
      rw [field, lookup_self hpre]
    rw [read, hfield, hrest]
    cases r w with
    | none => rfl
    | some a => rfl

theorem read_other (hne : n ≠ name)
    (h : (cons n r default rest).read (pre ++ (name, v) :: post) = some (x, y)) (w : Value) :
    (cons n r default rest).read (pre ++ (name, w) :: post) =
      (rest.read (pre ++ (name, w) :: post)).map fun b => (x, b) := by
  have hfield : field (pre ++ (name, w) :: post) n r default = some x :=
    (field_congr (lookup_other hne)).trans (read_cons.mp h).1
  rw [read, hfield]
  rfl

end

/-- **The fields are heeded one by one.** -/
theorem each_iff (P : Reader β → Value → Prop) : ∀ {α : Type} {fields : Schema α}
    {f : α → Option β} {a : α}, fields.names.Nodup → Once ms fields → fields.read ms = some a →
      (fields.Each P ms f a ↔ ∀ pre name v post, ms = pre ++ (name, v) :: post →
        name ∈ fields.names →
          P (fun w => (fields.read (pre ++ (name, w) :: post)).bind f) v)
  | _, nil, _, _, _, _, _ =>
      ⟨fun _ _ _ _ _ _ hname => absurd hname List.not_mem_nil, fun _ => trivial⟩
  | _, cons n r default rest, f, (x, y), hnodup, honce, hread => by
      obtain ⟨hn, hrest⟩ := List.nodup_cons.mp hnodup
      have hpre : ∀ pre v post, ms = pre ++ (n, v) :: post → ∀ m ∈ pre, m.1 ≠ n :=
        fun pre v post hms => honce pre n v post hms (List.mem_cons_self ..)
      have ih := each_iff P (f := fun b => f (x, b)) hrest
        (fun pre name v post hms hname =>
          honce pre name v post hms (List.mem_cons_of_mem _ hname)) (read_cons.mp hread).2
      -- the slice at the first field, and a slice at another
      have hfirst : ∀ pre v post, ms = pre ++ (n, v) :: post →
          (fun w => (read (pre ++ (n, w) :: post) (cons n r default rest)).bind f) =
            fun w => (r w).bind fun a => f (a, y) := by
        rintro pre v post rfl
        funext w
        rw [(read_self hn (hpre pre v post rfl) hread).2 w, Option.bind_map]
        rfl
      have hother : ∀ pre name v post, ms = pre ++ (name, v) :: post → name ∈ rest.names →
          (fun w => (read (pre ++ (name, w) :: post) (cons n r default rest)).bind f) =
            fun w => (rest.read (pre ++ (name, w) :: post)).bind fun b => f (x, b) := by
        rintro pre name v post rfl hname
        funext w
        have hne : n ≠ name := by
          rintro rfl
          exact hn hname
        rw [read_other hne hread w, Option.bind_map]
        rfl
      constructor
      · rintro ⟨hhere, hthere⟩ pre name v post hms hname
        rcases List.mem_cons.mp hname with rfl | hname
        · rw [hfirst pre v post hms]
          have hlookup : ms.lookup name = some v := by
            rw [hms]
            exact lookup_self (hpre pre v post hms)
          rw [hms] at hread
          exact hhere v hlookup (read_self hn (hpre pre v post hms) hread).1
        · rw [hother pre name v post hms hname]
          exact ih.mp hthere pre name v post hms hname
      · intro hall
        constructor
        · intro v hlookup _
          obtain ⟨pre, post, hms, -⟩ := List.lookup_eq_some_iff.mp hlookup
          rw [← hfirst pre v post hms]
          exact hall pre n v post hms (List.mem_cons_self ..)
        · refine ih.mpr fun pre name v post hms hname => ?_
          rw [← hother pre name v post hms hname]
          exact hall pre name v post hms (List.mem_cons_of_mem _ hname)

end Schema

/-! ### Structs and enumerations -/

/-- A member of an object, whose value is heeded and matters; or an element of an array, whose
value is heeded. -/
def Slot (inObject : Prop) (r : Reader α) (v : Value) : Prop :=
  (inObject → Varies r v) ∧ Heeds r v

theorem Schema.once_of_admits {deny : Bool} {fields : Schema α} {ms : List (String × Value)}
    (h : fields.Admits deny (ms.map (·.1))) : Once ms fields := by
  rintro pre name v post rfl hname m hm rfl
  have hnodup := h.1
  rw [List.map_append, List.map_cons, List.filter_append, List.filter_cons,
    if_pos (by simpa using hname), List.nodup_append] at hnodup
  refine hnodup.2.2 m.1 ?_ m.1 (by simp) rfl
  exact List.mem_filter.mpr ⟨List.mem_map_of_mem hm, by simpa using hname⟩

/-- An element of an array is the value of the field of its index. -/
theorem zip_append_cons {names : List String} {pre post : List Value} {v : Value}
    (hlen : (pre ++ v :: post).length ≤ names.length) :
    ∃ (front : List String) (name : String) (back : List String),
      names = front ++ name :: back ∧ front.length = pre.length ∧
        ∀ w, names.zip (pre ++ w :: post) = front.zip pre ++ (name, w) :: back.zip post := by
  rw [List.length_append, List.length_cons] at hlen
  have hfront : (names.take pre.length).length = pre.length := by
    rw [List.length_take]
    omega
  cases hdrop : names.drop pre.length with
  | nil =>
      have hlt := congrArg List.length hdrop
      rw [List.length_drop, List.length_nil] at hlt
      omega
  | cons name back =>
      have hnames : names = names.take pre.length ++ name :: back := by
        rw [← hdrop, List.take_append_drop]
      refine ⟨_, name, back, hnames, hfront, fun w => ?_⟩
      conv_lhs => rw [hnames]
      rw [List.zip_append hfront, List.zip_cons_cons]

/-- The value of a field is the element at its index; the fields in front are others. -/
theorem zip_eq_append_cons {names : List String} (hnodup : names.Nodup) {l : List Value}
    (hlen : l.length ≤ names.length) {pre post : List (String × Value)} {name : String}
    {v : Value} (h : names.zip l = pre ++ (name, v) :: post) :
    (∀ m ∈ pre, m.1 ≠ name) ∧ ∃ pre' post', l = pre' ++ v :: post' ∧
      ∀ w, names.zip (pre' ++ w :: post') = pre ++ (name, w) :: post := by
  have hl : l = pre.map (·.2) ++ v :: post.map (·.2) := by
    have hsnd := congrArg (List.map Prod.snd) h
    rw [List.map_snd_zip hlen, List.map_append, List.map_cons] at hsnd
    exact hsnd
  subst hl
  obtain ⟨front, name', back, hnames, hfront, hzip⟩ := zip_append_cons hlen
  have heq := (hzip v).symm.trans h
  obtain ⟨hpre, htail⟩ := List.append_inj heq (by
    rw [List.length_zip, hfront, List.length_map, Nat.min_self])
  obtain ⟨hhead, hpost⟩ := List.cons.inj htail
  obtain ⟨hname, -⟩ := Prod.mk.inj hhead
  subst hname
  constructor
  · rintro m hm rfl
    rw [hnames, List.nodup_append] at hnodup
    rw [← hpre] at hm
    exact hnodup.2.2 m.1 (List.of_mem_zip hm).1 m.1 (List.mem_cons_self ..) rfl
  · refine ⟨_, _, rfl, fun w => ?_⟩
    rw [hzip w, hpre, hpost]

/-- **A struct is heeded where it has no unknown members and its fields are heeded.** -/
theorem heeds_struct {deny : Bool} {fields : Schema α} {f : α → Option β} {v : Value} {a : α}
    (hnodup : fields.names.Nodup) (h : struct deny fields v = some a) :
    Heeds (fun w => (struct deny fields w).bind f) v ↔
      v.FieldsOnly fields.names ∧
        fields.Each (Slot v.IsObject) (v.members fields.names) f a := by
  cases v with
  | object ms =>
      have hadmits : fields.Admits deny (ms.map (·.1)) ∧ fields.read ms = some a :=
        Option.ite_none_right_eq_some.mp h
      obtain ⟨hadmits, hread⟩ := hadmits
      have hslice : ∀ pre name v post, ms = pre ++ (name, v) :: post → ∀ w,
          struct deny fields (.object (pre ++ (name, w) :: post)) =
            fields.read (pre ++ (name, w) :: post) := by
        rintro pre name v post rfl w
        refine if_pos ?_
        simpa using hadmits
      rw [heeds_object, Value.members,
        Schema.each_iff _ hnodup (Schema.once_of_admits hadmits) hread]
      constructor
      · intro hall
        constructor
        · intro m hm
          obtain ⟨pre, post, rfl⟩ := List.append_of_mem hm
          by_contra hunknown
          refine not_varies (fun w b hw => ?_) (hall pre m.1 m.2 post rfl).1
          have hother : fields.read (pre ++ (m.1, w) :: post) =
              fields.read (pre ++ (m.1, m.2) :: post) :=
            Schema.read_congr fun n hn => Schema.lookup_other fun hne => hunknown (hne ▸ hn)
          rw [hslice _ _ _ _ rfl, hother] at hw
          rwa [hslice _ _ _ _ rfl]
        · intro pre name v post hms _
          have hboth := hall pre name v post hms
          simp only [hslice pre name v post hms] at hboth
          exact ⟨fun _ => hboth.1, hboth.2⟩
      · rintro ⟨hknown, hall⟩ pre name v post hms
        obtain ⟨hvaries, hheeds⟩ := hall pre name v post hms
          (hknown (name, v) (by rw [hms]; simp))
        simp only [hslice pre name v post hms]
        exact ⟨hvaries trivial, hheeds⟩
  | array l =>
      obtain ⟨hlen, hread⟩ : l.length ≤ fields.names.length ∧
        fields.read (fields.names.zip l) = some a := Option.ite_none_right_eq_some.mp h
      have honce : Schema.Once (fields.names.zip l) fields := fun pre name v post hzip _ =>
        (zip_eq_append_cons hnodup hlen hzip).1
      have hslice : ∀ pre v post, l = pre ++ v :: post → ∀ w,
          struct deny fields (.array (pre ++ w :: post)) =
            fields.read (fields.names.zip (pre ++ w :: post)) := by
        rintro pre v post rfl w
        refine if_pos ?_
        simpa using hlen
      rw [heeds_array]
      refine Iff.trans ?_ (and_iff_right trivial).symm
      rw [Value.members, Schema.each_iff _ hnodup honce hread]
      constructor
      · intro hall pre name v post hzip _
        obtain ⟨-, pre', post', hl, hback⟩ := zip_eq_append_cons hnodup hlen hzip
        have hheeds := hall pre' v post' hl
        simp only [hslice pre' v post' hl, hback] at hheeds
        exact ⟨False.elim, hheeds⟩
      · rintro hall pre v post rfl
        obtain ⟨front, name, back, hnames, -, hzip⟩ := zip_append_cons hlen
        have hheeds := (hall _ name v _ (hzip v) (by rw [hnames]; simp)).2
        simp only [hslice pre v post rfl, hzip]
        exact hheeds
  | _ => cases h

/-- The same, of the type that is built from the fields. -/
theorem heeds_struct_map {deny : Bool} {fields : Schema α} {build : α → γ} {f : γ → Option β}
    {v : Value} {c : γ} (hnodup : fields.names.Nodup)
    (h : (struct deny fields v).map build = some c) :
    ∃ a, build a = c ∧ struct deny fields v = some a ∧
      (Heeds (fun w => ((struct deny fields w).map build).bind f) v ↔
        v.FieldsOnly fields.names ∧
          fields.Each (Slot v.IsObject) (v.members fields.names) (fun a => f (build a)) a) := by
  obtain ⟨a, ha, hc⟩ := Option.map_eq_some_iff.mp h
  refine ⟨a, hc, ha, ?_⟩
  rw [← heeds_struct hnodup ha]
  simp only [Option.bind_map]
  rfl

/-- An object and an array are read alike, by the members they stand for. -/
theorem read_members {deny : Bool} {fields : Schema α} {v : Value} {a : α}
    (h : struct deny fields v = some a) : fields.read (v.members fields.names) = some a := by
  cases v with
  | object ms => exact (Option.ite_none_right_eq_some.mp h).2
  | array l => exact (Option.ite_none_right_eq_some.mp h).2
  | _ => cases h

theorem fieldsOnly_of_deny {fields : Schema α} {v : Value} {a : α}
    (h : struct true fields v = some a) : v.FieldsOnly fields.names := by
  cases v with
  | object ms =>
      obtain ⟨hadmits, -⟩ := Option.ite_none_right_eq_some.mp h
      exact fun m hm => hadmits.2 rfl m.1 (List.mem_map_of_mem hm)
  | _ => trivial

/-- A plain field of which two values come to different results. -/
theorem slot_of_two {r : Reader α} (hr : Plain r) {u : Value} {x : α} (hu : r u = some x)
    {f : α → Option β} {w₁ w₂ : Value} {x₁ x₂ : α} {b₁ b₂ : β} (h₁ : r w₁ = some x₁)
    (h₂ : r w₂ = some x₂) (hb₁ : f x₁ = some b₁) (hb₂ : f x₂ = some b₂) (hne : b₁ ≠ b₂)
    (inObject : Prop) : Slot inObject (fun w => (r w).bind f) u := by
  have hfirst : (r w₁).bind f = some b₁ := by rw [h₁, Option.bind_some, hb₁]
  have hsecond : (r w₂).bind f = some b₂ := by rw [h₂, Option.bind_some, hb₂]
  exact ⟨fun _ => varies_of_two hfirst hsecond hne u, (hr u x hu).heeds _⟩

/-- The same, where every value of the field comes to a result. -/
theorem slot_of_injective {r : Reader α} (hr : Plain r) {u : Value} {x : α} (hu : r u = some x)
    {g : α → β} {w₁ w₂ : Value} {x₁ x₂ : α} (h₁ : r w₁ = some x₁) (h₂ : r w₂ = some x₂)
    (inObject : Prop) (hne : g x₁ ≠ g x₂) :
    Slot inObject (fun w => (r w).bind fun x => some (g x)) u := by
  have hg : ∀ x, (fun x => some (g x)) x = some (g x) := fun _ => rfl
  exact slot_of_two hr hu h₁ h₂ (hg x₁) (hg x₂) hne inObject

/-- A field that matters, of which no more is kept than what it comes to. -/
theorem slot_iff_heeds {r : Reader α} {g : α → Option γ} {f : α → Option β} {build : γ → β}
    (hf : ∀ x, f x = (g x).map build) (hbuild : Function.Injective build) {u : Value}
    (hvaries : Varies (fun w => (r w).bind g) u) (inObject : Prop) :
    Slot inObject (fun w => (r w).bind f) u ↔ Heeds (fun w => (r w).bind g) u := by
  have hcomp : (fun w => (r w).bind f) = fun w => ((r w).bind g).map build := by
    funext w
    cases r w with
    | none => rfl
    | some x => exact hf x
  rw [hcomp, Slot, varies_map hbuild, heeds_map hbuild]
  exact and_iff_right fun _ => hvaries

theorem tagged_eq_some {variants : List (String × Reader α)} {v : Value} {a : α}
    (h : tagged variants v = some a) : ∃ tag u r, v = .object [(tag, u)] ∧
      variants.lookup tag = some r ∧ r u = some a := by
  unfold tagged at h
  split at h
  · obtain ⟨r, hr, ha⟩ := Option.bind_eq_some_iff.mp h
    exact ⟨_, _, r, rfl, hr, ha⟩
  · cases h

/-- **An enumeration is heeded where its variant is**, if the content of the variant matters. -/
theorem heeds_tagged {variants : List (String × Reader α)} {f : α → Option β} {tag : String}
    {u : Value} {r : Reader α} (hr : variants.lookup tag = some r) :
    Heeds (fun w => (tagged variants w).bind f) (.object [(tag, u)]) ↔
      Varies (fun w => (r w).bind f) u ∧ Heeds (fun w => (r w).bind f) u := by
  have hslice : (fun w => (tagged variants (.object [(tag, w)])).bind f) =
      fun w => (r w).bind f := by
    funext w
    rw [tagged, hr]
    rfl
  rw [heeds_object, ← hslice]
  constructor
  · exact fun h => h [] tag u [] rfl
  · intro h pre name v post hms
    cases pre with
    | nil =>
        cases hms
        exact h
    | cons m pre => exact absurd (List.cons.inj hms).2 (by simp)

end Reader

end Serde
