/-
Address blocks through a second round trip, and address blocks of mixed families.

A prefix is read with the bytes it was given but written as its network, so what is read
comes back exactly where the bytes have no bit behind the prefix length.  Addresses are
written without their width, so they come back exactly where they have the width of the
family they stand under.
-/
import C509Cert.Extensions.AddressWire
import C509Cert.Extensions.IpAddrRoundTrip
import C509Cert.Minicbor.Reference

namespace C509

open Cbor Codec

/-! ### Bits behind a prefix length -/

theorem ofBe_append_replicate (b : Bytes) (n : Nat) :
    ofBe (b ++ List.replicate n 0) = ofBe b * 256 ^ n := by
  induction b with
  | nil =>
      have hzero := ofBe_replicate_zero n []
      rw [List.append_nil] at hzero
      simp [hzero, ofBe]
  | cons x b ih =>
      rw [List.cons_append, ofBe, ih, ofBe, List.length_append, List.length_replicate]
      ring

theorem maskByte_eq_self_iff (p : Nat) (x : UInt8) :
    maskByte p x = x ↔ 2 ^ (8 - p) ∣ x.toNat := by
  rw [← UInt8.toNat_inj, maskByte_toNat]
  constructor
  · intro h
    exact Dvd.intro_left _ h
  · exact Nat.div_mul_cancel

/-- **A byte string is its own mask** where its bits behind the first `p` are clear. -/
theorem maskBytes_eq_self_iff (p : Nat) (b : Bytes) :
    maskBytes p b = b ↔ 2 ^ (8 * b.length - p) ∣ ofBe b := by
  induction b generalizing p with
  | nil => simp [maskBytes, ofBe]
  | cons x b ih =>
      have hpow : 256 ^ b.length = 2 ^ (8 * b.length) := by rw [pow_mul]; norm_num
      have hlt := ofBe_lt b
      rw [maskBytes, List.cons.injEq, maskByte_eq_self_iff, ih, ofBe, List.length_cons]
      by_cases hp : 8 ≤ p
      · -- the whole byte is kept
        have hexp : 8 * (b.length + 1) - p = 8 * b.length - (p - 8) := by omega
        have hdvd : 2 ^ (8 * b.length - (p - 8)) ∣ x.toNat * 256 ^ b.length := by
          rw [hpow]
          exact Dvd.dvd.mul_left (pow_dvd_pow 2 (by omega)) _
        rw [hexp, (Nat.dvd_add_right hdvd), show 8 - p = 0 by omega]
        simp
      · -- none of the bytes behind it is
        have hexp : 8 * (b.length + 1) - p = 8 * b.length + (8 - p) := by omega
        rw [show p - 8 = 0 by omega, Nat.sub_zero, hexp, ← hpow, pow_add, ← hpow]
        have hzero : 256 ^ b.length ∣ ofBe b ↔ ofBe b = 0 :=
          ⟨fun h => Nat.eq_zero_of_dvd_of_lt h hlt, fun h => h ▸ Nat.dvd_zero _⟩
        rw [hzero]
        constructor
        · rintro ⟨hx, hb⟩
          rw [hb, Nat.add_zero, Nat.mul_comm]
          exact Nat.mul_dvd_mul hx (dvd_refl _)
        · intro h
          have hb : ofBe b = 0 := by
            refine hzero.mp ((Nat.dvd_add_right (Dvd.intro_left _ rfl)).mp
              (dvd_trans (Dvd.intro _ rfl) h))
          rw [hb, Nat.add_zero, Nat.mul_comm] at h
          exact ⟨Nat.dvd_of_mul_dvd_mul_right (by positivity) h, hb⟩

/-- **A prefix has no host bits** where the unused bits it was built with are clear. -/
theorem noHostBits_iff {afi : UInt16} {value : Bytes} {unusedBits : UInt8} {net : IpNet}
    (h : buildPrefix afi value unusedBits = .ok net) :
    net.NoHostBits ↔ 2 ^ unusedBits.toNat ∣ ofBe value := by
  obtain ⟨haddr, hunused, hp⟩ := buildPrefix_ok_iff.mp h
  obtain ⟨width, -, hle, hoctets⟩ := buildAddr_ok_iff.mp haddr
  have hmask : net.NoHostBits ↔ maskBytes net.prefixLen.toNat net.addr.octets = net.addr.octets :=
    ⟨fun h => congrArg IpAddr.octets h, fun h => IpAddr.ext_octets h⟩
  have hpow : 256 ^ (width - value.length) = 2 ^ (8 * (width - value.length)) := by
    rw [pow_mul]
    norm_num
  have hexp : 8 * (value.length + (width - value.length)) - net.prefixLen.toNat =
      unusedBits.toNat + 8 * (width - value.length) := by omega
  rw [hmask, maskBytes_eq_self_iff, hoctets, ofBe_append_replicate, List.length_append,
    List.length_replicate, hexp, pow_add, hpow]
  exact Nat.mul_dvd_mul_iff_right (by positivity)

/-! ### Host bits on the wire -/

/-- The unused bits of a prefix in byte-string form are clear. -/
def stringClear : Entry Bytes → Prop
  | .single (unusedBits :: value) => 2 ^ unusedBits.toNat ∣ ofBe value
  | _ => True

/-- The unused bits of a prefix in int form are clear. -/
def intClear : Entry Int → Prop
  | .single abs => ∀ value unusedBits, framedFromAbsoluteInt abs = .ok (value, unusedBits) →
      2 ^ unusedBits.toNat ∣ ofBe value
  | .range _ _ => True

/-- No prefix of the family has a bit set among its unused ones. -/
def WireChoice.Clear : WireChoice → Prop
  | inherit => True
  | ints es => ∀ e ∈ resolved es, intClear e
  | strings es => ∀ e ∈ es, stringClear e

/-- What each value says of the element it was made of, said of all. -/
theorem forall_mapM_iff {α β : Type} {f : α → Option β} {P : α → Prop} {Q : β → Prop}
    (hPQ : ∀ {x y}, f x = some y → (Q y ↔ P x)) :
    ∀ {l : List α} {l' : List β}, l.mapM f = some l' → ((∀ y ∈ l', Q y) ↔ ∀ x ∈ l, P x) := by
  intro l
  induction l with
  | nil =>
      rintro l' ⟨⟩
      simp
  | cons x l ih =>
      intro l' h
      rw [List.mapM_cons] at h
      obtain ⟨y, hy, h⟩ := Option.bind_eq_some_iff.mp h
      obtain ⟨l'', hl, h⟩ := Option.bind_eq_some_iff.mp h
      cases h
      simp only [List.forall_mem_cons, hPQ hy, ih hl]

/-- The entry, where it is a prefix, has no host bits. -/
def IpAddressOrRange.NoHostBits (e : IpAddressOrRange) : Prop :=
  ∀ net, e = .addressPrefix net → net.NoHostBits

theorem noHostBits_addressPrefix {afi : UInt16} {value : Bytes} {unusedBits : UInt8} {net : IpNet}
    (h : buildPrefix afi value unusedBits = .ok net) :
    (IpAddressOrRange.addressPrefix net).NoHostBits ↔ 2 ^ unusedBits.toNat ∣ ofBe value := by
  rw [← noHostBits_iff h]
  constructor
  · intro hall
    exact hall net rfl
  · rintro hnet _ ⟨⟩
    exact hnet

theorem noHostBits_range (min max : IpAddr) : (IpAddressOrRange.range min max).NoHostBits := by
  rintro net ⟨⟩

theorem noHostBits_bytesValue {afi : UInt16} {e : Entry Bytes} {x : IpAddressOrRange}
    (h : bytesValue afi e = some x) : x.NoHostBits ↔ stringClear e := by
  cases e with
  | single raw =>
      obtain ⟨framed, hframed, h⟩ := Option.bind_eq_some_iff.mp h
      obtain ⟨net, hnet, h⟩ := Option.bind_eq_some_iff.mp h
      cases h
      cases raw with
      | nil => cases hframed
      | cons unusedBits value =>
          cases hframed
          exact noHostBits_addressPrefix (toOption_eq_some.mp hnet)
  | range min max =>
      obtain ⟨_, -, h⟩ := Option.bind_eq_some_iff.mp h
      obtain ⟨_, -, h⟩ := Option.bind_eq_some_iff.mp h
      cases h
      exact iff_of_true (noHostBits_range _ _) trivial

theorem noHostBits_intValue {afi : UInt16} {e : Entry Int} {x : IpAddressOrRange}
    (h : intValue afi e = some x) : x.NoHostBits ↔ intClear e := by
  cases e with
  | single abs =>
      obtain ⟨⟨value, unusedBits⟩, hframed, h⟩ := Option.bind_eq_some_iff.mp h
      obtain ⟨net, hnet, h⟩ := Option.bind_eq_some_iff.mp h
      cases h
      rw [noHostBits_addressPrefix (toOption_eq_some.mp hnet)]
      rw [toOption_eq_some] at hframed
      constructor
      · intro hdvd value' unusedBits' heq
        rw [hframed] at heq
        cases heq
        exact hdvd
      · intro hall
        exact hall value unusedBits hframed
  | range min max =>
      obtain ⟨_, -, h⟩ := Option.bind_eq_some_iff.mp h
      obtain ⟨_, -, h⟩ := Option.bind_eq_some_iff.mp h
      obtain ⟨_, -, h⟩ := Option.bind_eq_some_iff.mp h
      obtain ⟨_, -, h⟩ := Option.bind_eq_some_iff.mp h
      cases h
      exact iff_of_true (noHostBits_range _ _) trivial

theorem noHostBits_prefixes {fam : IpAddressFamily} {entries : List IpAddressOrRange}
    (h : fam.choice = .prefixes entries) :
    fam.NoHostBits ↔ ∀ e ∈ entries, e.NoHostBits := by
  constructor
  · rintro hall e he net rfl
    exact hall entries h net he
  · intro hall entries' h' net hnet
    rw [h] at h'
    cases h'
    exact hall _ hnet net rfl

/-- **A family has no host bits** where its reading has none. -/
theorem noHostBits_value {w : WireFamily} {fam : IpAddressFamily} (h : w.value = some fam) :
    fam.NoHostBits ↔ w.choice.Clear := by
  obtain ⟨choice, hchoice, rfl⟩ := Option.map_eq_some_iff.mp h
  obtain ⟨afi, safi, wc⟩ := w
  cases wc with
  | inherit =>
      cases hchoice
      refine iff_of_true ?_ trivial
      rintro entries ⟨⟩
  | ints es =>
      obtain ⟨entries, hentries, rfl⟩ := Option.map_eq_some_iff.mp hchoice
      rw [noHostBits_prefixes rfl]
      exact forall_mapM_iff noHostBits_intValue hentries
  | strings es =>
      obtain ⟨entries, hentries, rfl⟩ := Option.map_eq_some_iff.mp hchoice
      rw [noHostBits_prefixes rfl]
      exact forall_mapM_iff noHostBits_bytesValue hentries

theorem map_normalise_eq_iff {families : List IpAddressFamily} :
    families.map IpAddressFamily.normalise = families ↔ ∀ fam ∈ families, fam.NoHostBits := by
  constructor
  · intro h fam hfam
    rw [List.map_eq_iff] at h
    obtain ⟨i, hi, hget⟩ := List.getElem_of_mem hfam
    have heq := h i
    rw [List.getElem?_eq_getElem hi, hget] at heq
    exact IpAddressFamily.noHostBits_of_normalise_eq (Option.some.inj heq).symm
  · intro h
    calc families.map IpAddressFamily.normalise
        = families.map id :=
          List.map_congr_left fun fam hfam => IpAddressFamily.normalise_eq (h fam hfam)
      _ = families := List.map_id families

section

variable [Minicbor] [LawfulMinicbor]

/--
**Decoded address blocks are stable exactly where no prefix has host bits.**  They are
written as their networks, so encoding and decoding them again gives them back where none of
the prefixes on the wire has a bit set among its unused bits, in either form.
-/
theorem addressBlocks_stable_iff {b r : Bytes} {families : List IpAddressFamily}
    (h : decodeIpAddressFamilies.run b = .ok (families, r)) :
    (∃ out, (encodeIpAddressFamilies families).run = .ok ((), out) ∧
      decodeIpAddressFamilies.run out = .ok (families, [])) ↔
        ∀ ws c t, FamiliesWire ws c → b = c ++ t → ∀ w ∈ ws, w.choice.Clear := by
  obtain ⟨c, rfl, ws, hws, hvalue⟩ := (denotes_families b families r).mp h
  obtain ⟨-, -, -, hvalid, -⟩ := reads_ipAddressFamilies (X := NoPieces) _ _ _ h
  obtain ⟨out, hout, hback⟩ := writes_ipAddressFamilies hvalid
  have hback' : decodeIpAddressFamilies.run out =
      .ok (families.map IpAddressFamily.normalise, []) := by
    have hrun := hback []
    rwa [List.append_nil] at hrun
  have hstable : (∃ out, (encodeIpAddressFamilies families).run = .ok ((), out) ∧
      decodeIpAddressFamilies.run out = .ok (families, [])) ↔
        families.map IpAddressFamily.normalise = families := by
    constructor
    · rintro ⟨out', hout', hrun⟩
      rw [hout] at hout'
      cases hout'
      rw [hback', Except.ok.injEq, Prod.mk.injEq] at hrun
      exact hrun.1
    · intro heq
      exact ⟨out, hout, by rw [hback', heq]⟩
  have hreading : (∀ ws' c' t, FamiliesWire ws' c' → c ++ r = c' ++ t → ∀ w ∈ ws', w.choice.Clear) ↔
      ∀ w ∈ ws, w.choice.Clear := by
    constructor
    · intro hall
      exact hall ws c r hws rfl
    · intro hall ws' c' t hws' heq
      obtain ⟨rfl, -, -⟩ := hws.unique hws' heq
      exact hall
  rw [hstable, hreading, map_normalise_eq_iff]
  exact forall_mapM_iff noHostBits_value hvalue

end

section

open scoped Reference

/-- The family of AFI 1 with 10.1.0.0/15, which has a host bit. -/
def hostBitFamilies : List IpAddressFamily :=
  [{ afi := 1, safi := none,
     choice := .prefixes [.addressPrefix ⟨⟨[10, 1, 0, 0], Or.inl rfl⟩, 15, by decide⟩] }]

def hostBitBytes : Bytes := [0x83, 0x01, 0xf6, 0x81, 0x43, 0x01, 0x0a, 0x01]

theorem hostBitBytes_decodes : decodeIpAddressFamilies.run hostBitBytes =
    .ok (hostBitFamilies, []) := rfl

theorem addressBlocks_stable_iff_hostBit :
    (∃ out, (encodeIpAddressFamilies hostBitFamilies).run = .ok ((), out) ∧
      decodeIpAddressFamilies.run out = .ok (hostBitFamilies, [])) ↔
        ∀ ws c t, FamiliesWire ws c → hostBitBytes = c ++ t → ∀ w ∈ ws, w.choice.Clear :=
  addressBlocks_stable_iff hostBitBytes_decodes

/-- The host bit is lost. -/
theorem addressBlocks_unstable : ∃ b families r,
    decodeIpAddressFamilies.run b = .ok (families, r) ∧
      ¬ ∃ out, (encodeIpAddressFamilies families).run = .ok ((), out) ∧
        decodeIpAddressFamilies.run out = .ok (families, []) := by
  refine ⟨hostBitBytes, hostBitFamilies, [], hostBitBytes_decodes, ?_⟩
  rintro ⟨out, hout, hback⟩
  have hwritten : (encodeIpAddressFamilies hostBitFamilies).run =
      .ok ((), [0x83, 0x01, 0xf6, 0x81, 0x1a, 0x00, 0x02, 0x0a, 0x00]) := rfl
  rw [hwritten] at hout
  cases hout
  obtain ⟨families, hread, hne⟩ : ∃ families, decodeIpAddressFamilies.run
      [0x83, 0x01, 0xf6, 0x81, 0x1a, 0x00, 0x02, 0x0a, 0x00] = .ok (families, []) ∧
        families ≠ hostBitFamilies := ⟨_, rfl, by decide⟩
  rw [hread, Except.ok.injEq, Prod.mk.injEq] at hback
  exact hne hback.1

end

/-! ### Families and the addresses under them -/

/-- Every address is of the family it stands under. -/
def IpAddressFamily.Matches (fam : IpAddressFamily) : Prop :=
  ∀ entries, fam.choice = .prefixes entries → ∀ e ∈ entries, e.OfFamily fam.afi

/-- The lists fit in memory. -/
def FamiliesHeld (families : List IpAddressFamily) : Prop :=
  families.length * 3 < 2 ^ 64 ∧
    ∀ fam ∈ families, ∀ entries, fam.choice = .prefixes entries → entries.length < 2 ^ 64

theorem IpAddressFamily.valid_of_matches {fam : IpAddressFamily}
    (hheld : ∀ entries, fam.choice = .prefixes entries → entries.length < 2 ^ 64)
    (h : fam.Matches) : fam.Valid := by
  obtain ⟨afi, safi, choice⟩ := fam
  cases choice with
  | inherit => trivial
  | prefixes entries => exact ⟨hheld entries rfl, h entries rfl⟩

theorem IpAddressFamily.Valid.matches {fam : IpAddressFamily} (h : fam.Valid) : fam.Matches := by
  intro entries hchoice
  rw [Valid, hchoice] at h
  exact h.2

theorem ofFamily_normalise_iff {afi : UInt16} {e : IpAddressOrRange} :
    e.normalise.OfFamily afi ↔ e.OfFamily afi := by
  cases e with
  | addressPrefix net =>
      show (net.normalise.addr).OfFamily afi ↔ net.addr.OfFamily afi
      unfold IpAddr.OfFamily
      rw [show net.normalise.addr.octets.length = net.addr.octets.length from maskBytes_length _ _]
  | range min max => exact Iff.rfl

theorem IpAddressFamily.matches_normalise_iff {fam : IpAddressFamily} :
    fam.normalise.Matches ↔ fam.Matches := by
  obtain ⟨afi, safi, choice⟩ := fam
  cases choice with
  | inherit =>
      refine iff_of_true ?_ ?_ <;> rintro entries ⟨⟩
  | prefixes entries =>
      have hiff : (∀ e ∈ entries.map IpAddressOrRange.normalise, e.OfFamily afi) ↔
          ∀ e ∈ entries, e.OfFamily afi := by
        simp only [List.forall_mem_map, ofFamily_normalise_iff]
      constructor
      · rintro h _ ⟨⟩
        exact hiff.mp (h _ rfl)
      · rintro h _ ⟨⟩
        exact hiff.mpr (h _ rfl)

section

variable [Minicbor]

/-! ### The encoder never fails -/

theorem total_encodeDelta {c : Chain} (hc : c.InRange) {abs : Int} (hlo : 0 ≤ abs)
    (hhi : abs < 2 ^ 64) : Printer.Total (encodeDelta (c.nextDelta abs)) := by
  rw [encodeDelta_eq hc hlo hhi]
  exact Printer.Total.put _

theorem total_intEntry {e : IpAddressOrRange} (hshort : e.resolve.isShort = true) {c : Chain}
    (hc : c.InRange) :
    ∃ c' o, (encodeIntEntry c e.resolve).run = .ok (c', o) ∧ c'.InRange := by
  cases e with
  | addressPrefix net =>
      obtain ⟨abs, habs, hlo, hhi, -⟩ := absoluteInt_prefix hshort
      obtain ⟨⟨⟩, o, ho⟩ := total_encodeDelta hc (show 0 ≤ abs by omega) hhi
      refine ⟨Chain.after abs, o ++ [], ?_, Chain.inRange_after (by omega) hhi⟩
      rw [IpAddressOrRange.resolve, encodeIntEntry, habs, toEncodeErr, Printer.pure_bind]
      exact Printer.run_bind_of_ok ho (Printer.run_pure _)
  | range min max =>
      obtain ⟨hshortMin, hshortMax⟩ := range_isShort hshort
      obtain ⟨minAbs, hmin, hlo, hhi, -⟩ := absoluteInt_bound hshortMin
      obtain ⟨maxAbs, hmax, hlo', hhi', -⟩ := absoluteInt_bound hshortMax
      obtain ⟨⟨⟩, o, ho⟩ := total_encodeDelta hc (show 0 ≤ minAbs by omega) hhi
      obtain ⟨⟨⟩, o', ho'⟩ := total_encodeDelta
        (Chain.inRange_after (show 0 ≤ minAbs by omega) hhi) (show 0 ≤ maxAbs by omega) hhi'
      refine ⟨Chain.after maxAbs, Minicbor.writeArray 2 ++ (o ++ (o' ++ [])), ?_,
        Chain.inRange_after (by omega) hhi'⟩
      rw [IpAddressOrRange.resolve, encodeIntEntry, hmin, hmax, toEncodeErr, Printer.pure_bind,
        toEncodeErr, Printer.pure_bind]
      exact Printer.run_bind_of_ok (Printer.run_put _) (Printer.run_bind_of_ok ho
        (Printer.run_bind_of_ok ho' (Printer.run_pure _)))

theorem total_bytesEntry (e : ResolvedEntry) : Printer.Total (encodeBytesEntry e) := by
  cases e with
  | addressPrefix bytes unusedBits => exact Printer.Total.put _
  | range minBytes maxBytes =>
      exact Printer.Total.bind (Printer.Total.put _) fun _ =>
        Printer.Total.bind (Printer.Total.put _) fun _ => Printer.Total.put _

theorem total_ipAddressChoice (choice : IpAddressChoice) :
    Printer.Total (encodeIpAddressChoice choice) := by
  cases choice with
  | inherit => exact Printer.Total.put _
  | prefixes entries =>
      refine Printer.Total.bind (Printer.Total.put _) fun _ => ?_
      split
      · rename_i hform
        rw [Printer.iterate_map]
        refine Printer.Total.iterate (I := Chain.InRange) ?_ Chain.start Chain.inRange_start
        intro c hc e he
        exact total_intEntry (List.all_eq_true.mp hform _ (List.mem_map_of_mem he)) hc
      · exact Printer.Total.forM fun e _ => total_bytesEntry e

/-- **Address blocks are always written**, whatever stands under which family. -/
theorem total_ipAddressFamilies (families : List IpAddressFamily) :
    Printer.Total (encodeIpAddressFamilies families) := by
  refine Printer.Total.bind (Printer.Total.put _) fun _ => Printer.Total.forM fun fam _ => ?_
  refine Printer.Total.bind (Printer.Total.put _) fun _ => Printer.Total.bind ?_ fun _ =>
    total_ipAddressChoice fam.choice
  cases fam.safi with
  | none => exact Printer.Total.put _
  | some s => exact Printer.Total.put _

variable [LawfulMinicbor]

/--
**Encoding keeps the addresses exactly where they match their families.**  The encoder never
fails, and what it writes is read back as the same networks and ranges where every prefix and
every bound is an address of the family it stands under; otherwise what is read back, if
anything, is something else.
-/
theorem addressBlocks_kept_iff {families : List IpAddressFamily} (hheld : FamiliesHeld families) :
    (∀ out, (encodeIpAddressFamilies families).run = .ok ((), out) →
      ∃ back, decodeIpAddressFamilies.run out = .ok (back, []) ∧
        back.map IpAddressFamily.normalise = families.map IpAddressFamily.normalise) ↔
      ∀ fam ∈ families, fam.Matches := by
  constructor
  · intro hkept
    obtain ⟨⟨⟩, out, hout⟩ := total_ipAddressFamilies families
    obtain ⟨back, hback, heq⟩ := hkept out hout
    obtain ⟨-, -, -, hvalid, -⟩ := reads_ipAddressFamilies (X := NoPieces) _ _ _ hback
    have hnormal : ∀ fam ∈ families.map IpAddressFamily.normalise, fam.Matches := by
      rw [← heq]
      simp only [List.forall_mem_map, IpAddressFamily.matches_normalise_iff]
      exact fun fam hfam => (hvalid.2 fam hfam).matches
    simpa only [List.forall_mem_map, IpAddressFamily.matches_normalise_iff] using hnormal
  · intro hmatches out hout
    have hvalid : FamiliesValid families :=
      ⟨hheld.1, fun fam hfam =>
        IpAddressFamily.valid_of_matches (hheld.2 fam hfam) (hmatches fam hfam)⟩
    obtain ⟨out', hout', hback⟩ := writes_ipAddressFamilies hvalid
    rw [hout] at hout'
    cases hout'
    have hrun := hback []
    rw [List.append_nil] at hrun
    refine ⟨_, hrun, ?_⟩
    rw [List.map_map]
    exact List.map_congr_left fun fam _ => fam.normalise_normalise

end

section

open scoped Reference

/-- The family of AFI 1 with the IPv6 prefix 2001:db8::/32. -/
def mixedFamilies : List IpAddressFamily :=
  [{ afi := 1, safi := none, choice := .prefixes [.addressPrefix
      ⟨⟨[0x20, 0x01, 0x0d, 0xb8, 0, 0, 0, 0, 0, 0, 0, 0, 0, 0, 0, 0], Or.inr rfl⟩, 32,
        by decide⟩] }]

theorem mixedFamilies_held : FamiliesHeld mixedFamilies := by
  refine ⟨by decide, fun fam hfam entries hentries => ?_⟩
  obtain rfl := List.mem_singleton.mp hfam
  cases hentries
  decide

theorem addressBlocks_kept_iff_mixed :
    (∀ out, (encodeIpAddressFamilies mixedFamilies).run = .ok ((), out) →
      ∃ back, decodeIpAddressFamilies.run out = .ok (back, []) ∧
        back.map IpAddressFamily.normalise = mixedFamilies.map IpAddressFamily.normalise) ↔
      ∀ fam ∈ mixedFamilies, fam.Matches :=
  addressBlocks_kept_iff mixedFamilies_held

/-- The prefix is read back as 32.1.13.184/32. -/
theorem addressBlocks_changed : ∃ families, FamiliesHeld families ∧ ∃ out back,
    (encodeIpAddressFamilies families).run = .ok ((), out) ∧
      decodeIpAddressFamilies.run out = .ok (back, []) ∧
        back.map IpAddressFamily.normalise ≠ families.map IpAddressFamily.normalise :=
  ⟨mixedFamilies, mixedFamilies_held, _, _, rfl, rfl, by decide⟩

end

end C509
