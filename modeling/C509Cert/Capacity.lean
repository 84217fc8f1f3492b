/-
What the decoders reserve.

`Vec::with_capacity` panics where the bytes asked for exceed `isize::MAX`, that is, where
the elements a header announces, times their size, do.  Four of the sites cap the request
by the input that is left; the others trust the header.  The sizes of the elements are
the compiler's and stay a parameter, and a `usize` is taken to have 64 bits.

So it depends on the headers the input comes to (`Capacity/Headers.lean`) whether decoding
panics and whether it reserves more than the input that is left.
-/
import C509Cert.Capacity.Headers
import C509Cert.Minicbor.Reference

namespace C509

open Cbor Codec

/-- `isize::MAX`, the most bytes an allocation may have. -/
def ISIZE_MAX : Nat := 2 ^ 63 - 1

namespace Reserve

/-- The bytes asked for fit an allocation. -/
def Fits (size : Site → Nat) (e : Reserve) : Prop := e.requested * size e.site ≤ ISIZE_MAX

instance (size : Site → Nat) (e : Reserve) : Decidable (e.Fits size) :=
  inferInstanceAs (Decidable (_ ≤ _))

/-- The bound `bounded_capacity` documents: no more elements than bytes of input. -/
def Bounded (e : Reserve) : Prop := e.requested ≤ e.remaining

/-- The header is more than its site can take: the site trusts it, and there are not as many
bytes left; or what is left is too much for an allocation. -/
def TooMany (size : Site → Nat) : HeaderTest := fun site n left =>
  (site.bounded = false ∧ left < n) ∨ ISIZE_MAX < min n left * size site

/-- The capacity computed from the header is too much for an allocation. -/
def Overflows (size : Site → Nat) : HeaderTest := fun site n left =>
  ISIZE_MAX < (if site.bounded then min n left else n) * size site

variable {size : Site → Nat} {e : Reserve}

/-- A request the site computes is unsafe exactly where the header is too much for it. -/
theorem not_safe_iff (he : e.Computed) :
    ¬ (e.Fits size ∧ e.Bounded) ↔ e.Matches (TooMany size) := by
  unfold Fits Bounded Matches TooMany
  unfold Computed at he
  rw [not_and_or, Nat.not_le, Nat.not_le]
  cases hsite : e.site.bounded with
  | true =>
      rw [if_pos hsite] at he
      rw [he]
      have hle : ¬ e.remaining < min e.announced e.remaining := by omega
      simp [hle]
  | false =>
      rw [if_neg (by simp [hsite])] at he
      rw [he]
      rcases Nat.lt_or_ge e.remaining e.announced with hlt | hle
      · simp [hlt]
      · rw [Nat.min_eq_left hle]
        simp [Nat.not_lt.mpr hle]

theorem not_fits_iff (he : e.Computed) : ¬ e.Fits size ↔ e.Matches (Overflows size) := by
  unfold Fits Matches Overflows
  rw [Nat.not_le, he]

end Reserve

section

variable [Minicbor] {α : Type}

/-- What a decoder comes to, where `Vec::with_capacity` may panic. -/
def decodeOrPanic (size : Site → Nat) (m : Dec α) (b : Bytes) :
    Outcome (Except DecodeError (α × Bytes)) :=
  if ∀ e ∈ m.log b, e.Fits size then .returned (m.run b) else .panicked "capacity overflow"

/-- The decoder returns, and reserves no more than the input that is left. -/
def ReservesSafely (size : Site → Nat) (m : Dec α) (b : Bytes) : Prop :=
  (∃ x, decodeOrPanic size m b = .returned x) ∧ ∀ e ∈ m.log b, e.Bounded

theorem decodeOrPanic_returns_iff {size : Site → Nat} {m : Dec α} {b : Bytes} :
    (∃ x, decodeOrPanic size m b = .returned x) ↔ ∀ e ∈ m.log b, e.Fits size := by
  unfold decodeOrPanic
  split
  · rename_i h
    exact ⟨fun _ => h, fun _ => ⟨_, rfl⟩⟩
  · rename_i h
    exact ⟨fun ⟨x, hx⟩ => (by cases hx), fun h' => absurd h' h⟩

variable {size : Site → Nat} {m : Dec α} {W : Bytes → Prop}

theorem reservesSafely_iff (hlog : Logs m Reserve.Computed)
    (hm : Meets (Reserve.Matches (Reserve.TooMany size)) W m) (b : Bytes) :
    ReservesSafely size m b ↔ ¬ W b := by
  unfold ReservesSafely
  rw [decodeOrPanic_returns_iff, ← hm b]
  constructor
  · rintro ⟨hfits, hbounded⟩ ⟨e, he, hmatch⟩
    exact (Reserve.not_safe_iff (hlog b e he)).mpr hmatch ⟨hfits e he, hbounded e he⟩
  · intro hno
    have hsafe : ∀ e ∈ m.log b, e.Fits size ∧ e.Bounded := fun e he => by
      by_contra hunsafe
      exact hno ⟨e, he, (Reserve.not_safe_iff (hlog b e he)).mp hunsafe⟩
    exact ⟨fun e he => (hsafe e he).1, fun e he => (hsafe e he).2⟩

theorem decodeOrPanic_panics_iff (hlog : Logs m Reserve.Computed)
    (hm : Meets (Reserve.Matches (Reserve.Overflows size)) W m) (b : Bytes) :
    (∃ msg, decodeOrPanic size m b = .panicked msg) ↔ W b := by
  rw [← hm b]
  constructor
  · rintro ⟨msg, hpanic⟩
    unfold decodeOrPanic at hpanic
    split at hpanic
    · cases hpanic
    · rename_i hfits
      simp only [not_forall] at hfits
      obtain ⟨e, he, hno⟩ := hfits
      exact ⟨e, he, (Reserve.not_fits_iff (hlog b e he)).mp hno⟩
  · rintro ⟨e, he, hmatch⟩
    refine ⟨"capacity overflow", if_neg fun hfits => ?_⟩
    exact (Reserve.not_fits_iff (hlog b e he)).mpr hmatch (hfits e he)

namespace C509Certificate

variable [OidCrate] [LawfulMinicbor]

/--
**Decoding reserves safely exactly where the input comes to no header that is too much for its
site.**  On every input, whatever the sizes of the elements.
-/
theorem decode_reservesSafely_iff (size : Site → Nat) (b : Bytes) :
    (ReservesSafely size decodeItem b ↔ ¬ ItemAnnounces (Reserve.TooMany size) b) ∧
      (ReservesSafely size decodeFields b ↔ ¬ FieldsAnnounce (Reserve.TooMany size) b) :=
  ⟨reservesSafely_iff logs_decodeItem meets_decodeItem b,
    reservesSafely_iff logs_decodeFields meets_decodeFields b⟩

/-- What the two decoders come to panics on a header that overflows an allocation. -/
theorem decode_panics_iff (size : Site → Nat) (b : Bytes) :
    ((∃ msg, decodeOrPanic size decodeItem b = .panicked msg) ↔
      ItemAnnounces (Reserve.Overflows size) b) ∧
    ((∃ msg, decodeOrPanic size decodeFields b = .panicked msg) ↔
      FieldsAnnounce (Reserve.Overflows size) b) :=
  ⟨decodeOrPanic_panics_iff logs_decodeItem meets_decodeItem b,
    decodeOrPanic_panics_iff logs_decodeFields meets_decodeFields b⟩

end C509Certificate

end

/-- Thirteen bytes, the last nine of them the head of a name that announces `2^64 - 2`
items. -/
def longName : Bytes :=
  [0x03, 0x41, 0x01, 0x00, 0x9b, 0xff, 0xff, 0xff, 0xff, 0xff, 0xff, 0xff, 0xfe]

open scoped Reference in
/-- Elements of 24 bytes are asked for `2^63 - 1` times, with no input left. -/
theorem name_header_overflows :
    decodeOrPanic (fun _ => 24) C509Certificate.decodeFields longName =
      .panicked "capacity overflow" ∧
    C509Certificate.decodeFields.log longName =
      [{ site := .name, announced := 2 ^ 63 - 1, remaining := 0, requested := 2 ^ 63 - 1 }] :=
  ⟨rfl, rfl⟩

open scoped Reference in
theorem decode_reservesSafely_iff_longName :
    ReservesSafely (fun _ => 24) C509Certificate.decodeFields longName ↔
      ¬ C509Certificate.FieldsAnnounce (Reserve.TooMany fun _ => 24) longName :=
  (C509Certificate.decode_reservesSafely_iff (fun _ => 24) longName).2

end C509
