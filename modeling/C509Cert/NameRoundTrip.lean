/-
Names and directory attributes read back (`name.rs`, `subject_directory_attributes.rs`).

Both are lists of attributes under one code, and that code writes the string type of a
registered attribute as the sign of its id.  The sign of 0 says nothing, and this is all
that is lost: whatever else the attributes hold, and whether or not the name is written as
a bare value, they come back as they were.
-/
import C509Cert.Extensions.Values
import C509Cert.Minicbor.Reference

namespace C509

open Cbor Codec

namespace RdnAttr

variable {S B : Type}

/-- The sign of the id tells the string type. -/
def Signed : RdnAttr S B → Prop
  | registered id printableString _ => ¬ (id = 0 ∧ printableString = true)
  | oid _ _ => True

variable [Minicbor] [OidCrate] [RdnValue S] [RdnValue B] [LawfulRdnValue S] [LawfulRdnValue B]

/-- The strings fit in memory, and the `oid` crate reads the identifier back. -/
def Held : RdnAttr S B → Prop
  | registered _ _ value => LawfulRdnValue.Valid value
  | oid o value => o.Valid ∧ LawfulRdnValue.Valid value

theorem valid_iff {D : Demands} (hD : ∀ o, ObjectIdentifier.Valid o → D.oid o)
    {a : RdnAttr S B} (h : a.Held) : a.Valid D ↔ a.Signed := by
  cases a with
  | registered id printableString value => exact ⟨fun hv => hv.1, fun hs => ⟨hs, h⟩⟩
  | oid o value => exact ⟨fun _ => trivial, fun _ => ⟨hD o h.1, h.2⟩⟩

/-- A list of attributes is one a decoder returns, and reads back, where the signs tell. -/
theorem forall_valid_iff {D : Demands} (hD : ∀ o, ObjectIdentifier.Valid o → D.oid o) {n : Nat}
    {attrs : List (RdnAttr S B)} (h : attrs.length * 2 < n ∧ ∀ a ∈ attrs, a.Held) :
    (attrs.length * 2 < n ∧ ∀ a ∈ attrs, a.Valid D) ↔ ∀ a ∈ attrs, a.Signed := by
  constructor
  · intro hv a ha
    exact (valid_iff hD (h.2 a ha)).mp (hv.2 a ha)
  · intro hs
    exact ⟨h.1, fun a ha => (valid_iff hD (h.2 a ha)).mpr (hs a ha)⟩

/-- An attribute is always written, with or without a sign. -/
theorem total_encode {a : RdnAttr S B} (h : a.Held) : Printer.Total a.encode := by
  have hvalue : ∀ {α : Type} [RdnValue α] [LawfulRdnValue α] {v : α},
      LawfulRdnValue.Valid v → Printer.Total (RdnValue.encode v) := by
    intro α _ _ v hv
    obtain ⟨c, hc, -⟩ := LawfulRdnValue.writes hv
    exact ⟨(), c, hc⟩
  cases a with
  | registered id printableString value =>
      exact Printer.Total.bind (Printer.Total.put _) fun _ => hvalue h
  | oid o value => exact Printer.Total.bind (Printer.Total.put _) fun _ => hvalue h.2

end RdnAttr

section

variable [Minicbor] [OidCrate] [LawfulMinicbor]

/-- The attributes fit in memory. -/
def Name.Held (name : Name) : Prop :=
  name.attrs.length * 2 < 2 ^ 64 ∧ ∀ a ∈ name.attrs, a.Held

/-- The attributes fit in memory. -/
def SubjectDirectoryAttributes.Held (v : SubjectDirectoryAttributes) : Prop :=
  v.attrs.length * 2 < 2 ^ 64 ∧ ∀ a ∈ v.attrs, a.Held

theorem Name.total_encode {name : Name} (h : name.Held) : Printer.Total name.encode := by
  unfold Name.encode
  split
  · rename_i value hbare
    obtain rfl := Name.bareValue_eq_some hbare
    have hvalue : value.Valid := h.2 _ (List.mem_singleton_self _)
    obtain ⟨c, hc, -⟩ := SpecialText.writes hvalue
    exact ⟨(), c, hc⟩
  · exact Printer.Total.bind (Printer.Total.put _) fun _ =>
      Printer.Total.forM fun a ha => RdnAttr.total_encode (h.2 a ha)

omit [OidCrate] [LawfulMinicbor] in
/-- What a codec reads back of the values it always writes: those its decoder can return. -/
theorem roundTrips_iff_of_total {α : Type} {p : Enc} {m : Dec α} {a : α} {k : Nat}
    {P Q : α → Prop} {C : Prop} (htotal : Printer.Total p) (hreads : Reads NoPieces k m P)
    (hP : P a ↔ C) (hwrites : Q a → Writes p m a) (hQ : Q a ↔ C) :
    (∀ out, p.run = .ok ((), out) → m.run out = .ok (a, [])) ↔ C := by
  constructor
  · intro h
    obtain ⟨⟨⟩, out, hout⟩ := htotal
    obtain ⟨-, -, -, ha, -⟩ := hreads _ _ _ (h out hout)
    exact hP.mp ha
  · intro hC out hout
    obtain ⟨out', hout', hback⟩ := hwrites (hQ.mpr hC)
    rw [hout] at hout'
    cases hout'
    have hrun := hback []
    rwa [List.append_nil] at hrun

variable [LawfulOid]

/--
**Names and directory attributes round-trip exactly up to the sign of zero.**  They are always
written, and read back as they were where none of their attributes is a registered printable
string with id 0.
-/
theorem names_roundTrip_iff :
    (∀ name : Name, name.Held →
      ((∀ out, name.encode.run = .ok ((), out) → Name.decode.run out = .ok (name, [])) ↔
        ∀ a ∈ name.attrs, a.Signed)) ∧
    ∀ v : SubjectDirectoryAttributes, v.Held →
      ((∀ out, v.encode.run = .ok ((), out) →
        SubjectDirectoryAttributes.decode.run out = .ok (v, [])) ↔ ∀ a ∈ v.attrs, a.Signed) := by
  constructor
  · intro name h
    exact roundTrips_iff_of_total (Name.total_encode h)
      Name.reads (RdnAttr.forall_valid_iff (fun _ ho => ho.read) h)
      Name.writes (RdnAttr.forall_valid_iff (fun _ ho => ho) h)
  · intro v h
    have htotal : Printer.Total v.encode :=
      Printer.Total.bind (Printer.Total.put _) fun _ =>
        Printer.Total.forM fun a ha => RdnAttr.total_encode (h.2 a ha)
    exact roundTrips_iff_of_total htotal
      SubjectDirectoryAttributes.reads (RdnAttr.forall_valid_iff (fun _ ho => ho.read) h)
      SubjectDirectoryAttributes.writes (RdnAttr.forall_valid_iff (fun _ ho => ho) h)

end

section

open scoped Reference

/-- One e-mail address as a printable string. -/
def printableEmailName : Name := ⟨[.registered 0 true (.text "a@b")]⟩

def printableEmailAttributes : SubjectDirectoryAttributes :=
  ⟨[.registered 0 true [.text "a@b"]]⟩

theorem printableEmail_held : printableEmailName.Held ∧ printableEmailAttributes.Held := by
  have htext : (SpecialText.text "a@b").Valid := by
    show (utf8 "a@b").length < 2 ^ 64
    decide
  refine ⟨⟨by decide, fun a ha => ?_⟩, by decide, fun a ha => ?_⟩
  · obtain rfl := List.mem_singleton.mp ha
    exact htext
  · obtain rfl := List.mem_singleton.mp ha
    refine ⟨by decide, fun v hv => ?_⟩
    obtain rfl := List.mem_singleton.mp hv
    exact htext

theorem names_roundTrip_iff_email :
    ((∀ out, printableEmailName.encode.run = .ok ((), out) →
      Name.decode.run out = .ok (printableEmailName, [])) ↔
        ∀ a ∈ printableEmailName.attrs, a.Signed) ∧
    ((∀ out, printableEmailAttributes.encode.run = .ok ((), out) →
      SubjectDirectoryAttributes.decode.run out = .ok (printableEmailAttributes, [])) ↔
        ∀ a ∈ printableEmailAttributes.attrs, a.Signed) :=
  ⟨names_roundTrip_iff.1 _ printableEmail_held.1, names_roundTrip_iff.2 _ printableEmail_held.2⟩

/-- Both come back as UTF-8 strings. -/
theorem names_not_roundTrip :
    (∃ name : Name, name.Held ∧ ∃ out back, name.encode.run = .ok ((), out) ∧
      Name.decode.run out = .ok (back, []) ∧ back ≠ name) ∧
    ∃ v : SubjectDirectoryAttributes, v.Held ∧ ∃ out back, v.encode.run = .ok ((), out) ∧
      SubjectDirectoryAttributes.decode.run out = .ok (back, []) ∧ back ≠ v :=
  ⟨⟨printableEmailName, printableEmail_held.1, _, _, rfl, rfl, by decide⟩,
    printableEmailAttributes, printableEmail_held.2, _, _, rfl, rfl, by decide⟩

end

end C509
