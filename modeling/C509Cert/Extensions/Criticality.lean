/-
Criticality through decoding and encoding.

A list of extensions is written in one of two forms, and the form is chosen by the shape
of the list, not by its values.  The one list that cannot keep its sign in the form
chosen for it is a keyUsage of value 0 alone, and it comes off the wire as critical from
one form only: an array of the id -2 and the value 0.  An id that is an OID survives where
the `oid` crate reads it back from the octets it writes for it.
-/
import C509Cert.Codec.Agree
import C509Cert.Codec.Rereads
import C509Cert.Minicbor.Reference
import C509Cert.Writable

namespace C509

open Cbor Codec

namespace Extensions

/-- Ids and criticality, in order. -/
def marks (v : Extensions) : List (IntOrOid × Bool) := v.exts.map fun e => (e.id, e.critical)

theorem marks_normalise_eq_iff {v : Extensions} :
    v.normalise.marks = v.marks ↔ ¬ v.bareKeyUsage = some (true, 0) := by
  constructor
  · rintro h hbare
    obtain rfl := bareKeyUsage_eq_some.mp hbare
    exact absurd h (by decide)
  · intro h
    rw [normalise, if_neg h, marks, marks, List.map_map]
    rfl

/-- The input starts with an array of one critical keyUsage extension of value 0, whatever
the width of its heads. -/
def StartsWithCriticalZero (b : Bytes) : Prop :=
  ∃ h₁ h₂ h₃ r, Head 4 2 h₁ ∧ IntHead (-2) h₂ ∧ Head 0 0 h₃ ∧ b = h₁ ++ (h₂ ++ (h₃ ++ r))

/-! ### One extension -/

section

variable [Minicbor] [OidCrate] [LawfulMinicbor]

/-- Only the id -2 and the value 0 are read as a critical keyUsage of value 0. -/
theorem criticalZero_of_decode {b r : Bytes}
    (h : Extension.decode.run b = .ok (⟨.int KEY_USAGE_ID, true, .keyUsage 0⟩, r)) :
    ∃ h₂ h₃, IntHead (-2) h₂ ∧ Head 0 0 h₃ ∧ b = h₂ ++ (h₃ ++ r) := by
  obtain ⟨t, b', hpeek, hrun⟩ := Parser.run_bind_ok_iff.mp h
  obtain ⟨-, rfl⟩ := datatype_run_ok.mp hpeek
  split at hrun
  · obtain ⟨oid, b₁, -, hrun⟩ := Parser.run_bind_ok_iff.mp hrun
    obtain ⟨x, b₂, -, hrun⟩ := Parser.run_bind_ok_iff.mp hrun
    cases hrun
  · obtain ⟨x, b₁, hx, hrun⟩ := Parser.run_bind_ok_iff.mp hrun
    obtain ⟨value, b₂, hvalue, hrun⟩ := Parser.run_bind_ok_iff.mp hrun
    obtain ⟨raw, b₃, hraw, hpure⟩ := Parser.run_bind_ok_iff.mp hx
    cases hpure
    simp only [Parser.run_pure, Except.ok.injEq, Prod.mk.injEq, Extension.mk.injEq] at hrun
    obtain ⟨⟨hid, hneg, rfl⟩, rfl⟩ := hrun
    have habs : unsignedAbs raw = 2 := by
      rw [← UInt32.toUInt32_toInt32 (unsignedAbs raw), IntOrOid.int.inj hid]
      rfl
    rw [habs] at hvalue
    obtain ⟨n, b₄, hn, hpure⟩ := Parser.run_bind_ok_iff.mp hvalue
    cases hpure
    obtain ⟨h₂, hh₂, rfl⟩ := LawfulMinicbor.readI32_ok.mp (Decoder.lift_run_ok.mp hraw)
    obtain ⟨h₃, hh₃, rfl⟩ := LawfulMinicbor.readU32_ok.mp (Decoder.lift_run_ok.mp hn)
    have hraw2 : raw.toInt = -2 := by
      have hzero : (0 : Int32).toInt = 0 := rfl
      have htwo : (2 : UInt32).toNat = 2 := rfl
      have hnat := unsignedAbs_toNat raw
      rw [habs] at hnat
      rw [decide_eq_true_eq, Int32.lt_iff_toInt_lt, hzero] at hneg
      omega
    rw [hraw2] at hh₂
    exact ⟨h₂, h₃, hh₂, hh₃, rfl⟩

theorem decode_of_criticalZero {h₂ h₃ : Bytes} (hh₂ : IntHead (-2) h₂) (hh₃ : Head 0 0 h₃)
    (r : Bytes) : Extension.decode.run (h₂ ++ (h₃ ++ r)) =
      .ok (⟨.int KEY_USAGE_ID, true, .keyUsage 0⟩, r) := by
  obtain ⟨t, ht, htype⟩ := typeOf_intHead hh₂
  have hpeek : Decoder.datatype.run (h₂ ++ (h₃ ++ r)) = .ok (t, h₂ ++ (h₃ ++ r)) :=
    datatype_run_ok.mpr ⟨htype _, rfl⟩
  have hraw : Decoder.i32.run (h₂ ++ (h₃ ++ r)) = .ok (-2, h₃ ++ r) :=
    Decoder.lift_run_ok.mpr (LawfulMinicbor.readI32_ok.mpr ⟨h₂, hh₂, rfl⟩)
  have hvalue : Decoder.u32.run (h₃ ++ r) = .ok (0, r) :=
    Decoder.lift_run_ok.mpr (LawfulMinicbor.readU32_ok.mpr ⟨h₃, hh₃, rfl⟩)
  have hmagnitude : decodeCriticalMagnitude.run (h₂ ++ (h₃ ++ r)) = .ok ((2, true), h₃ ++ r) :=
    Parser.run_bind_of_ok hraw
  have hkey : (ExtensionValue.decode 2).run (h₃ ++ r) = .ok (.keyUsage 0, r) :=
    Parser.run_bind_of_ok hvalue
  have hstep : (do
      let x ← decodeCriticalMagnitude
      let value ← ExtensionValue.decode x.1
      return { id := .int x.1.toInt32, critical := x.2, value } : Dec Extension).run
        (h₂ ++ (h₃ ++ r)) = .ok (⟨.int KEY_USAGE_ID, true, .keyUsage 0⟩, r) := by
    rw [Parser.run_bind_of_ok hmagnitude]
    exact Parser.run_bind_of_ok hkey
  unfold Extension.decode
  rw [Parser.run_bind_of_ok hpeek]
  cases t <;> first | exact hstep | cases ht

/-! ### The list -/

theorem startsWithCriticalZero_of_decodeList {b r : Bytes}
    (h : decodeList.run b = .ok (ofKeyUsage true 0, r)) : StartsWithCriticalZero b := by
  obtain ⟨l, b₁, hgroups, hpure⟩ := Parser.run_bind_ok_iff.mp h
  cases hpure
  obtain ⟨n, b₂, hn, hrest⟩ := Parser.run_bind_ok_iff.mp hgroups
  obtain ⟨_, b₃, hmod, hloop⟩ := Parser.run_bind_ok_iff.mp hrest
  obtain ⟨_, b₄, hreserve, htimes⟩ := Parser.run_bind_ok_iff.mp hloop
  obtain ⟨heven, rfl⟩ := Parser.run_ensure_ok_iff.mp hmod
  cases hreserve
  obtain ⟨hone, he⟩ := Parser.times_run_singleton htimes
  obtain ⟨h₂, h₃, hh₂, hh₃, rfl⟩ := criticalZero_of_decode he
  obtain ⟨h₁, hh₁, rfl⟩ := definiteArrayLen_run_ok.mp hn
  have htwo : n.toNat = 2 := by
    have hmod' : n.toNat % 2 = 0 := (UInt64.toNat_mod n 2).symm.trans (congrArg UInt64.toNat heven)
    have hdiv : n.toNat / 2 = 1 := (UInt64.toNat_div n 2).symm.trans hone
    omega
  rw [htwo] at hh₁
  exact ⟨h₁, h₂, h₃, r, hh₁, hh₂, hh₃, rfl⟩

theorem decode_of_startsWithCriticalZero {b : Bytes} (h : StartsWithCriticalZero b) :
    ∃ r, decode.run b = .ok (ofKeyUsage true 0, r) := by
  obtain ⟨h₁, h₂, h₃, r, hh₁, hh₂, hh₃, rfl⟩ := h
  have hpeek : Decoder.datatype.run (h₁ ++ (h₂ ++ (h₃ ++ r))) =
      .ok (.array, h₁ ++ (h₂ ++ (h₃ ++ r))) :=
    datatype_run_ok.mpr ⟨typeOf_head (by omega) (by omega) hh₁ _, rfl⟩
  have hlen : definiteArrayLen.run (h₁ ++ (h₂ ++ (h₃ ++ r))) = .ok (2, h₂ ++ (h₃ ++ r)) :=
    definiteArrayLen_run_ok.mpr ⟨h₁, hh₁, rfl⟩
  have hloop : (Parser.times 1 Extension.decode).run (h₂ ++ (h₃ ++ r)) =
      .ok ([⟨.int KEY_USAGE_ID, true, .keyUsage 0⟩], r) :=
    Parser.run_bind_of_ok (decode_of_criticalZero hh₂ hh₃ r)
  have hgroups : (decodeGroups (withCapacity .extensions) 2
      "Extensions array must have an even number of elements" Extension.decode).run
        (h₁ ++ (h₂ ++ (h₃ ++ r))) = .ok ([⟨.int KEY_USAGE_ID, true, .keyUsage 0⟩], r) := by
    unfold decodeGroups
    rw [Parser.run_bind_of_ok hlen]
    exact hloop
  refine ⟨r, ?_⟩
  unfold decode
  rw [Parser.run_bind_of_ok hpeek]
  exact Parser.run_bind_of_ok hgroups

/-- A critical keyUsage of value 0 alone comes off the wire in one form. -/
theorem decode_bareCriticalZero_iff {b r : Bytes} {v : Extensions}
    (h : decode.run b = .ok (v, r)) :
    v.bareKeyUsage = some (true, 0) ↔ StartsWithCriticalZero b := by
  constructor
  · intro hbare
    obtain rfl := bareKeyUsage_eq_some.mp hbare
    obtain ⟨t, b', hpeek, hrun⟩ := Parser.run_bind_ok_iff.mp h
    obtain ⟨-, rfl⟩ := datatype_run_ok.mp hpeek
    split at hrun
    · exact startsWithCriticalZero_of_decodeList hrun
    · exact startsWithCriticalZero_of_decodeList hrun
    · -- the compact form has no critical zero
      obtain ⟨x, b₁, hx, hpure⟩ := Parser.run_bind_ok_iff.mp hrun
      obtain ⟨-, -, -, ⟨-, -, hsign⟩, -⟩ := reads_criticalMagnitude (X := NoPieces) _ _ _ hx
      simp only [Parser.run_pure, Except.ok.injEq, Prod.mk.injEq] at hpure
      have hbare' := congrArg bareKeyUsage hpure.1
      rw [hbare, bareKeyUsage_eq_some.mpr rfl] at hbare'
      obtain ⟨hcritical, hn⟩ := Prod.mk.inj (Option.some.inj hbare')
      exact absurd ⟨hn, hcritical⟩ hsign
  · intro hstarts
    obtain ⟨r', hdecode⟩ := decode_of_startsWithCriticalZero hstarts
    rw [hdecode] at h
    cases h
    rfl

end

end Extensions

/-! ### Identifiers that are lost -/

section

variable [OidCrate]

/-- The input starts with an OID that the `oid` crate reads, but not from what it writes for it. -/
def Extension.LosesOid (b : Bytes) : Prop :=
  ∃ h x s o, Head 2 x.length h ∧ OidCrate.tryFrom x = some o ∧ ¬ o.Valid ∧ b = h ++ (x ++ s)

variable [Minicbor]

/-- An array that has such an id among its pairs, past the first `i` of them. -/
def Extensions.LosesOid : Bytes → Prop :=
  InArray fun n b => ∃ i, i < n / 2 ∧ Past (Parser.times i Extension.decode) Extension.LosesOid b

/-- Whatever identifiers the value under a registered id holds, the `oid` crate reads back. -/
def Extension.Held [LawfulMinicbor] (e : Extension) : Prop :=
  ∀ id, e.id = .int id → e.value.Valid .readBack

variable [LawfulMinicbor]

omit [OidCrate] in
/-- A look at the type of what was written. -/
theorem rereads_peek {α : Type} {p : Enc} {t : DataType} {f : DataType → Dec α} {Q : α → Prop}
    (hp : Starts p (fun t' => t' = t)) (hf : Rereads p (f t) Q) :
    Rereads p (Decoder.datatype >>= f) Q := by
  intro c hc r a r' hrun
  obtain ⟨t', b', hpeek, hrest⟩ := Parser.run_bind_ok_iff.mp hrun
  obtain ⟨htype, rfl⟩ := datatype_run_ok.mp hpeek
  obtain ⟨_, rfl, hstart⟩ := hp c hc
  obtain rfl := Option.some.inj (htype.symm.trans (hstart r))
  exact hf c hc r a r' hrest

namespace Extension

theorem losesOid_iff {b r : Bytes} {e : Extension} (h : decode.run b = .ok (e, r)) :
    LosesOid b ↔ ∃ o, e.id = .oid o ∧ ¬ o.Valid := by
  obtain ⟨t, b', hpeek, hrun⟩ := Parser.run_bind_ok_iff.mp h
  obtain ⟨htype, rfl⟩ := datatype_run_ok.mp hpeek
  split at hrun
  · obtain ⟨o, b₁, ho, hrest⟩ := Parser.run_bind_ok_iff.mp hrun
    obtain ⟨x, b₂, -, hpure⟩ := Parser.run_bind_ok_iff.mp hrest
    cases hpure
    obtain ⟨octets, b₃, hbytes, hget⟩ := Parser.run_bind_ok_iff.mp ho
    obtain ⟨hread, rfl⟩ := Parser.run_get_ok_iff.mp hget
    obtain ⟨head, hh, rfl⟩ := LawfulMinicbor.readBytes_ok.mp (Decoder.lift_run_ok.mp hbytes)
    constructor
    · rintro ⟨head', octets', s, o', hh', hread', hlost, heq⟩
      rw [List.append_assoc] at heq
      obtain ⟨-, hlen, rfl, hrest⟩ := Head.unique (by omega) (by omega) hh hh' heq
      obtain ⟨rfl, -⟩ := List.append_inj hrest hlen
      obtain rfl := Option.some.inj (hread.symm.trans hread')
      exact ⟨o, rfl, hlost⟩
    · rintro ⟨_, ⟨⟩, hlost⟩
      exact ⟨head, octets, _, o, hh, hread, hlost, List.append_assoc ..⟩
  · rename_i hne
    obtain ⟨x, b₁, -, hrest⟩ := Parser.run_bind_ok_iff.mp hrun
    obtain ⟨value, b₂, -, hpure⟩ := Parser.run_bind_ok_iff.mp hrest
    cases hpure
    refine iff_of_false ?_ nofun
    rintro ⟨head, octets, s, o, hh, -, -, rfl⟩
    have hseen := typeOf_head (by omega) (by omega) hh (octets ++ s)
    cases htype.symm.trans hseen
    exact hne rfl

/-- What is read of an extension that was written, if anything is, has its id only where its
id is read back. -/
theorem rereads [LawfulOid] {e : Extension} (he : e.Valid .decoded) (hheld : e.Held)
    (hfits : e.IdFits) :
    Rereads e.encode decode fun e' => e'.id = e.id → ∀ o, e.id = .oid o → o.Valid := by
  obtain ⟨id, critical, value⟩ := e
  cases id with
  | int id =>
      have he' : Valid .readBack { id := .int id, critical, value } :=
        ⟨he.1, he.2.1, he.2.2.1, hheld id rfl⟩
      exact (Rereads.of_writes (writes he' hfits)).weaken fun _ _ _ o ho => by cases ho
  | oid oid =>
      obtain ⟨⟨-, hlen⟩, b, rfl, hb⟩ := he
      have hoid : Rereads (Encoder.bytes (oidBytes oid)) decodeOid fun o =>
          OidCrate.tryFrom (oidBytes oid) = some o := by
        intro c hc r o r' hrun
        obtain ⟨octets, r₁, hbytes, hget⟩ := Parser.run_bind_ok_iff.mp hrun
        obtain ⟨rfl, rfl⟩ := Rereads.of_writes (writes_bytes hlen) c hc r octets r₁ hbytes
        obtain ⟨hread, rfl⟩ := Parser.run_get_ok_iff.mp hget
        exact ⟨rfl, hread⟩
      refine rereads_peek (starts_bytes hlen).bind (Rereads.bind hoid fun o ho => ?_)
      refine (Rereads.of_writes (writes_oidValue critical hb)).map fun x _ hid _ hoid' => ?_
      cases hid
      cases hoid'
      exact ⟨ho, hlen⟩

theorem Valid.readBack {e : Extension} (he : e.Valid .decoded) (hheld : e.Held)
    (hoid : ∀ o, e.id = .oid o → o.Valid) : e.Valid .readBack := by
  obtain ⟨id, critical, value⟩ := e
  cases id with
  | int id => exact ⟨he.1, he.2.1, he.2.2.1, hheld id rfl⟩
  | oid oid => exact ⟨hoid oid rfl, he.2⟩

end Extension

namespace Extensions

theorem losesOid_of_decodeList {b r : Bytes} {v : Extensions}
    (h : decodeList.run b = .ok (v, r)) :
    LosesOid b ↔ ∃ e ∈ v.exts, ∃ o, e.id = .oid o ∧ ¬ o.Valid := by
  obtain ⟨l, b₁, hgroups, hpure⟩ := Parser.run_bind_ok_iff.mp h
  cases hpure
  obtain ⟨n, b₂, hn, hrest⟩ := Parser.run_bind_ok_iff.mp hgroups
  obtain ⟨_, b₃, hmod, hloop⟩ := Parser.run_bind_ok_iff.mp hrest
  obtain ⟨_, b₄, hreserve, htimes⟩ := Parser.run_bind_ok_iff.mp hloop
  obtain ⟨heven, rfl⟩ := Parser.run_ensure_ok_iff.mp hmod
  cases hreserve
  obtain ⟨head, hh, rfl⟩ := definiteArrayLen_run_ok.mp hn
  have hdiv : n.toNat / 2 = (n / 2).toNat := (UInt64.toNat_div n 2).symm
  rw [LosesOid, InArray.append_iff hh, hdiv]
  exact Past.rounds_iff (fun _ _ _ => Extension.losesOid_iff) _ htimes

/-- **An id is lost where the list that was read has one.** -/
theorem losesOid_iff {b r : Bytes} {v : Extensions} (h : decode.run b = .ok (v, r)) :
    LosesOid b ↔ ∃ e ∈ v.exts, ∃ o, e.id = .oid o ∧ ¬ o.Valid := by
  obtain ⟨t, b', hpeek, hrun⟩ := Parser.run_bind_ok_iff.mp h
  obtain ⟨htype, rfl⟩ := datatype_run_ok.mp hpeek
  split at hrun
  · exact losesOid_of_decodeList hrun
  · exact losesOid_of_decodeList hrun
  · rename_i hne _
    obtain ⟨x, b₁, -, hpure⟩ := Parser.run_bind_ok_iff.mp hrun
    cases hpure
    refine iff_of_false ?_ ?_
    · rintro ⟨n, head, s, hh, -, rfl⟩
      cases htype.symm.trans (typeOf_head (by omega) (by omega) hh s)
      exact hne rfl
    · rintro ⟨e, he, o, ho, -⟩
      rw [List.mem_singleton.mp he] at ho
      cases ho

/-- What is read of a list that was written, if anything is, has its ids only where each is
read back. -/
theorem rereads [LawfulOid] {v : Extensions} (hv : v.Valid .decoded)
    (hheld : ∀ e ∈ v.exts, e.Held) (hfits : v.Encodable) :
    Rereads v.encode decode fun v' =>
      v'.marks = v.marks → ∀ e ∈ v.exts, ∀ o, e.id = .oid o → o.Valid := by
  unfold encode
  cases hbare : v.bareKeyUsage with
  | some x =>
      obtain ⟨critical, n⟩ := x
      obtain rfl := bareKeyUsage_eq_some.mp hbare
      have hw : Writes (encodeKeyUsage critical n) decode (ofKeyUsage critical n).normalise :=
        writes_keyUsage (hfits.2 critical n hbare)
      refine (Rereads.of_writes hw).weaken fun _ _ _ e he o ho => ?_
      rw [List.mem_singleton.mp he] at ho
      cases ho
  | none =>
      obtain ⟨hmod, hdiv⟩ := groups_ofNat (k := 2) (by decide) hv.1
      have hloop : Rereads (forM v.exts Extension.encode)
          (Parser.times v.exts.length Extension.decode)
          (List.Forall₂ (fun e e' => e'.id = e.id → ∀ o, e.id = .oid o → o.Valid) v.exts) :=
        Rereads.times v.exts fun e he =>
          Extension.rereads (hv.2 e he) (hheld e he) (hfits.1 e he)
      have hlist : Rereads (encodeGroups 2 v.exts Extension.encode)
          (decodeGroups (withCapacity .extensions) 2
            "Extensions array must have an even number of elements" Extension.decode)
          (List.Forall₂ (fun e e' => e'.id = e.id → ∀ o, e.id = .oid o → o.Valid) v.exts) := by
        refine Rereads.bind (Rereads.of_writes (writes_definiteArray _)) fun n hn => ?_
        subst hn
        refine Rereads.step (P := fun _ => True) (fun b a r hrun => ?_) fun _ _ => ?_
        · exact ⟨(Parser.run_ensure_ok_iff.mp hrun).2, trivial⟩
        refine Rereads.step (P := fun _ => True) (fun b a r hrun => ?_) fun _ _ => ?_
        · cases hrun
          exact ⟨rfl, trivial⟩
        rwa [hdiv]
      refine rereads_peek (starts_array _).bind (hlist.map fun l hl hmarks => ?_)
      have hsame : List.Forall₂ Eq (v.exts.map fun e => (e.id, e.critical))
          (l.map fun e => (e.id, e.critical)) := by
        rw [List.forall₂_eq_eq_eq]
        exact hmarks.symm
      rw [List.forall₂_map_left_iff, List.forall₂_map_right_iff] at hsame
      have hvalid : List.Forall₂ (fun e e' => (∀ o, e.id = .oid o → o.Valid) ∧ e'.id = e.id)
          v.exts l :=
        hl.mp (fun e e' h hmark => ⟨h (Prod.mk.inj hmark).1.symm, (Prod.mk.inj hmark).1.symm⟩) hsame
      exact ((List.forall₂_and_left _ _).mp hvalid).1

/--
**Ids and criticality survive decoding and encoding, but for two kinds of inputs.**  Where the
identifiers within the values are read back, what was encoded decodes, as a whole, to a list
of the same ids and the same criticality, unless the input was the array of the id -2 and the
value 0 or has an OID for an id that the `oid` crate does not read back.
-/
theorem marks_survive_iff [LawfulOid] {b r o : Bytes} {v : Extensions}
    (hdec : decode.run b = .ok (v, r)) (henc : v.encode.run = .ok ((), o))
    (hheld : ∀ e ∈ v.exts, e.Held) :
    (∃ v', decode.run o = .ok (v', []) ∧ v'.marks = v.marks) ↔
      ¬ StartsWithCriticalZero b ∧ ¬ LosesOid b := by
  obtain ⟨-, -, -, hv, -⟩ := reads b v r hdec
  have hfits : v.Encodable := hv.writable_iff.mp (total_iff.mp ⟨_, o, henc⟩)
  have hback (hoids : ∀ e ∈ v.exts, ∀ o, e.id = .oid o → o.Valid) :
      decode.run o = .ok (v.normalise, []) := by
    have hv' : v.Valid .readBack :=
      ⟨hv.1, fun e he => (hv.2 e he).readBack (hheld e he) (hoids e he)⟩
    obtain ⟨o', henc', hy⟩ := writes hv' hfits
    rw [henc] at henc'
    cases henc'
    simpa using hy []
  rw [losesOid_iff hdec, ← decode_bareCriticalZero_iff hdec, ← marks_normalise_eq_iff]
  constructor
  · rintro ⟨v', hv', hmarks⟩
    have hoids := (rereads hv hheld hfits o henc [] v' [] (by simpa using hv')).2 hmarks
    rw [hback hoids] at hv'
    cases hv'
    refine ⟨hmarks, ?_⟩
    rintro ⟨e, he, oid, hid, hlost⟩
    exact hlost (hoids e he oid hid)
  · rintro ⟨hmarks, hnone⟩
    refine ⟨v.normalise, hback fun e he oid hid => ?_, hmarks⟩
    by_contra hlost
    exact hnone ⟨e, he, oid, hid, hlost⟩

end Extensions

end

namespace Extensions

open scoped Reference in
/-- The array of the id -2 and the value 0 is accepted, encoded and accepted again, and is
then no longer critical. -/
theorem criticalZero_lost : ∃ v o v', decode.run [0x82, 0x21, 0x00] = .ok (v, []) ∧
    v.encode.run = .ok ((), o) ∧ decode.run o = .ok (v', []) ∧ v'.marks ≠ v.marks :=
  ⟨ofKeyUsage true 0, [0x00], ofKeyUsage false 0, rfl, rfl, rfl, by decide⟩

open scoped Reference in
/-- Two critical extensions, one by the sign of its id and one by an array, under a head
that is not the shortest; both hold an OID. -/
theorem marks_survive_iff_two :
    (∃ v', decode.run [0x84, 0x27, 0x41, 0x2a, 0x41, 0x2a, 0x81, 0x40] = .ok (v', []) ∧
      v'.marks = [(.int 8, true), (.oid ⟨[1, 2]⟩, true)]) ↔
    ¬ StartsWithCriticalZero [0x98, 0x04, 0x27, 0x41, 0x2a, 0x41, 0x2a, 0x81, 0x40] ∧
      ¬ LosesOid [0x98, 0x04, 0x27, 0x41, 0x2a, 0x41, 0x2a, 0x81, 0x40] := by
  have hoid : ObjectIdentifier.Valid ⟨[1, 2]⟩ := ⟨rfl, by decide⟩
  refine marks_survive_iff (b := [0x98, 0x04, 0x27, 0x41, 0x2a, 0x41, 0x2a, 0x81, 0x40])
    (r := []) (v := ⟨[⟨.int 8, true, .extKeyUsage ⟨[.oid ⟨[1, 2]⟩]⟩⟩,
      ⟨.oid ⟨[1, 2]⟩, true, .raw []⟩]⟩) rfl rfl ?_
  intro e he id hid
  simp only [List.mem_cons, List.not_mem_nil, or_false] at he
  rcases he with rfl | rfl
  · refine ⟨by decide, fun p hp => ?_⟩
    rw [List.mem_singleton.mp hp]
    exact hoid
  · cases hid

end Extensions

end C509
