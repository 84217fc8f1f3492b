/-
The command-line program (`main.rs`), and how errors read (`error.rs`).

The program decodes hex, or builds a certificate from JSON or X.509 and prints its hex.  It
finds its arguments one flag at a time, taking each out of the list; `request` says what
that comes to, and `main_eq` that the program does it.  Files and standard input are a
`World`.  What is printed of a certificate is the certificate: its `Debug` text is derived.
What is decoded may panic on the way, at a header that overflows an allocation.
-/
import C509Cert.Allocation
import C509Cert.CertJson.Expressible
import C509Cert.Forms
import C509Cert.Writable

namespace C509

open Cbor Codec
open X509 (X509Parser)

/-! ### Errors -/

/-- The texts of other crates the program prints. -/
class MainCrates [Minicbor] where
  /-- `hex::encode` -/
  hexEncode : Bytes → String
  /-- `Display for minicbor::decode::Error` -/
  displayErr : Minicbor.Err → String

section

variable [Minicbor]

/-- `Display for Error` -/
def Error.display [MainCrates] : Error → String
  | .decode (.cbor e) => s!"CBOR decode error: {MainCrates.displayErr e}"
  | .decode (.malformed msg) => s!"malformed C509 certificate: {msg}"
  | .x509 msg => s!"X.509 conversion error: {msg}"
  | .json msg => s!"JSON conversion error: {msg}"

variable [OidCrate]

/-- `decode_certificate`: either form, by the type of the first item. -/
def decodeCertificate (bytes : Bytes) : Except Error C509Certificate :=
  match Minicbor.datatype bytes with
  | .ok .array | .ok .arrayIndef => C509Certificate.decode bytes
  | _ => C509Certificate.decodeSequence bytes

/-- The sizes of the elements that are reserved for, which the compiler chooses. -/
class ElementSizes where
  size : Site → Nat

variable [ElementSizes]

omit [OidCrate] in
/-- What a decoder returns of a certificate, where `Vec::with_capacity` may panic. -/
def C509Certificate.decodeFrontOrPanic (m : Dec C509Certificate) (b : Bytes) :
    Outcome (Except Error C509Certificate) :=
  match decodeOrPanic ElementSizes.size m b with
  | .returned (.ok (c, _)) => .returned (.ok c)
  | .returned (.error e) => .returned (.error (.decode e))
  | .panicked msg => .panicked msg

/-- `decode_certificate`, as the program runs it. -/
def decodeCertificateOrPanic (bytes : Bytes) : Outcome (Except Error C509Certificate) :=
  match Minicbor.datatype bytes with
  | .ok .array | .ok .arrayIndef =>
      C509Certificate.decodeFrontOrPanic C509Certificate.decodeItem bytes
  | _ => C509Certificate.decodeFrontOrPanic C509Certificate.decodeFields bytes

/-! ### The program -/

/-- What the program finds around it. -/
structure World where
  /-- `std::fs::read_to_string`, or the text of its error -/
  readToString : String → Except String String
  /-- `std::fs::read` -/
  read : String → Except String Bytes
  /-- `read_to_string` of standard input -/
  stdin : Except String String

/-- How a run of the program ends. -/
inductive Exit
  /-- a line on standard output, exit code 0 -/
  | printed (line : String)
  /-- a certificate on standard output, exit code 0 -/
  | certificate (c : C509Certificate)
  /-- a line on standard error, exit code 1 -/
  | failed (line : String)
  | panicked (msg : String)
  deriving DecidableEq

/-- The text of `print_usage`. -/
def usage : String :=
  "Usage: c509-cert [HEX]\n" ++
  "       c509-cert --from-json <FILE> [--sequence]\n" ++
  "       c509-cert --from-x509 <FILE> [--sequence]\n" ++
  "\n" ++
  "Decode a hex-encoded C509 certificate and print its structure, build one\n" ++
  "from a JSON description and print its hex encoding, or convert a real\n" ++
  "X.509 certificate (PEM or DER) straight into C509 hex.\n" ++
  "\n" ++
  "Decoding always auto-detects which of the two wire forms HEX is in\n" ++
  "(array-wrapped vs bare CBOR Sequence); --sequence has no effect there.\n" ++
  "\n" ++
  "Arguments:\n" ++
  "  HEX          Hex-encoded certificate bytes. If omitted, read from stdin.\n" ++
  "\n" ++
  "Options:\n" ++
  "      --sequence    Emit the bare CBOR Sequence form instead of the default\n" ++
  "                    CBOR array-wrapped form. Applies to --from-json and\n" ++
  "                    --from-x509 output; has no effect when decoding HEX.\n" ++
  "      --from-json <FILE>\n" ++
  "                    Build a C509Certificate from a JSON file instead of\n" ++
  "                    decoding HEX, and print its hex encoding. See the crate\n" ++
  "                    docs for `cert_json::JsonCertificate` for the schema.\n" ++
  "      --from-x509 <FILE>\n" ++
  "                    Convert a PEM- or DER-encoded X.509 certificate straight\n" ++
  "                    into C509 hex. Uses c509CertificateType = 3 (\"DER\n" ++
  "                    re-encoded\") semantics: the public key and signature\n" ++
  "                    are carried through as opaque bytes with no\n" ++
  "                    algorithm-specific repacking, and only a handful of\n" ++
  "                    common algorithms/extensions are recognized. See\n" ++
  "                    `x509_to_c509.rs` for exactly what's supported.\n" ++
  "  -h, --help        Print this help message and exit."

variable [JsonCrates]

/-- `hex_decode` -/
def hexDecode (s : String) : Except String Bytes := JsonCrates.hexDecode (cleaned s)

/-- `str::trim` -/
def trim (s : String) : String :=
  String.ofList ((s.toList.dropWhile isWhitespace).rdropWhile isWhitespace)

variable [MainCrates]

/-- The certificate in the form asked for, in hex. -/
def printEncoded (cert : C509Certificate) (sequence : Bool) : Exit :=
  match if sequence then cert.encodeSequence else cert.encode with
  | .returned bytes => .printed (MainCrates.hexEncode bytes)
  | .panicked msg => .panicked msg

variable [MacCrate]

/-- `encode_from_json` -/
def encodeFromJson (w : World) (path : String) (sequence : Bool) : Exit :=
  match w.readToString path with
  | .error e => .failed s!"failed to read {path}: {e}"
  | .ok text =>
      match fromJson text with
      | .error e => .failed s!"failed to build certificate from {path}: {e.display}"
      | .ok cert => printEncoded cert sequence

variable [X509Parser]

/-- `convert_from_x509` -/
def convertFromX509 (w : World) (path : String) (sequence : Bool) : Exit :=
  match w.read path with
  | .error e => .failed s!"failed to read {path}: {e}"
  | .ok bytes =>
      match fromX509 bytes with
      | .error e => .failed s!"failed to convert {path}: {e.display}"
      | .ok cert => printEncoded cert sequence

omit [MacCrate] [X509Parser] in
/-- `main`, once it has the hex. -/
def decodeHex (hex : String) : Exit :=
  match hexDecode (trim hex) with
  | .error e => .failed s!"invalid hex input: {e}"
  | .ok bytes =>
      match decodeCertificateOrPanic bytes with
      | .returned (.ok cert) => .certificate cert
      | .returned (.error e) => .failed s!"failed to decode C509Certificate: {e.display}"
      | .panicked msg => .panicked msg

/-- `args.iter().position(..)` and `args.remove(pos)`: where the flag was, and the others. -/
def removeFlag (flag : String) (args : List String) : Option (Nat × List String) :=
  (args.findIdx? fun a => a == flag).map fun pos => (pos, args.eraseIdx pos)

/-- `main`, without help and `--sequence`. -/
def mainWith (w : World) (args : List String) (sequence : Bool) : Exit :=
  match removeFlag "--from-json" args with
  | some (pos, args) =>
      match args[pos]? with
      | none => .failed "--from-json requires a file path"
      | some path => encodeFromJson w path sequence
  | none =>
      match removeFlag "--from-x509" args with
      | some (pos, args) =>
          match args[pos]? with
          | none => .failed "--from-x509 requires a file path"
          | some path => convertFromX509 w path sequence
      | none =>
          match args.head? with
          | some arg => decodeHex arg
          | none =>
              match w.stdin with
              | .ok buf => decodeHex buf
              | .error _ => .panicked "failed to read hex from stdin"

/-- `main` -/
def main (w : World) (args : List String) : Exit :=
  if args.any fun a => a == "--help" || a == "-h" then .printed usage
  else
    match removeFlag "--sequence" args with
    | some (_, args) => mainWith w args true
    | none => mainWith w args false

end

/-! ### What is asked of it -/

/-- A request to the program. -/
inductive Request
  | help
  | fromJson (path : Option String) (sequence : Bool)
  | fromX509 (path : Option String) (sequence : Bool)
  | decode (hex : Option String)
  deriving DecidableEq

/-- The argument after a flag. -/
def following (flag : String) (args : List String) : Option String :=
  (args.dropWhile fun a => !(a == flag)).tail.head?

/-- What the arguments but help and `--sequence` ask for. -/
def requestOf (others : List String) (sequence : Bool) : Request :=
  if "--from-json" ∈ others then .fromJson (following "--from-json" others) sequence
  else if "--from-x509" ∈ others then .fromX509 (following "--from-x509" others) sequence
  else .decode others.head?

/-- What the arguments ask for. -/
def request (args : List String) : Request :=
  if "--help" ∈ args ∨ "-h" ∈ args then .help
  else requestOf (args.erase "--sequence") (decide ("--sequence" ∈ args))

theorem removeFlag_of_mem {flag : String} {l r : List String} (h : flag ∉ l) :
    removeFlag flag (l ++ flag :: r) = some (l.length, l ++ r) := by
  have hidx : (l ++ flag :: r).findIdx? (fun a => a == flag) = some l.length := by
    rw [List.findIdx?_append, List.findIdx?_eq_none_iff.mpr, Option.none_or, List.findIdx?_cons]
    · simp
    · intro a ha
      rw [beq_eq_false_iff_ne]
      rintro rfl
      exact h ha
  rw [removeFlag, hidx, Option.map_some, List.eraseIdx_append_of_length_le (Nat.le_refl _)]
  simp

theorem removeFlag_of_not_mem {flag : String} {args : List String} (h : flag ∉ args) :
    removeFlag flag args = none := by
  rw [removeFlag, Option.map_eq_none_iff, List.findIdx?_eq_none_iff]
  intro a ha
  rw [beq_eq_false_iff_ne]
  rintro rfl
  exact h ha

theorem following_append {flag : String} {l r : List String} (h : flag ∉ l) :
    following flag (l ++ flag :: r) = r.head? := by
  have hdrop : (l ++ flag :: r).dropWhile (fun a => !(a == flag)) = flag :: r := by
    rw [List.dropWhile_append_of_pos, List.dropWhile_cons_of_neg (by simp)]
    intro a ha
    rw [Bool.not_eq_true', beq_eq_false_iff_ne]
    rintro rfl
    exact h ha
  rw [following, hdrop, List.tail_cons]

/-- What a flag leaves behind at its place is the argument after it. -/
theorem removeFlag_following {flag : String} {args : List String} (h : flag ∈ args) :
    ∃ pos rest, removeFlag flag args = some (pos, rest) ∧ rest[pos]? = following flag args ∧
      rest = args.erase flag := by
  obtain ⟨l, r, rfl, hl⟩ := List.eq_append_cons_of_mem h
  refine ⟨l.length, l ++ r, removeFlag_of_mem hl, ?_, ?_⟩
  · rw [following_append hl, List.getElem?_append_right (Nat.le_refl _), Nat.sub_self,
      List.head?_eq_getElem?]
  · rw [List.erase_append_right _ hl, List.erase_cons_head]

section

variable [Minicbor] [OidCrate] [ElementSizes] [JsonCrates] [MainCrates] [MacCrate] [X509Parser]

/-- What a request comes to. -/
def World.run (w : World) : Request → Exit
  | .help => .printed usage
  | .fromJson none _ => .failed "--from-json requires a file path"
  | .fromJson (some path) sequence => encodeFromJson w path sequence
  | .fromX509 none _ => .failed "--from-x509 requires a file path"
  | .fromX509 (some path) sequence => convertFromX509 w path sequence
  | .decode (some hex) => decodeHex hex
  | .decode none =>
      match w.stdin with
      | .ok buf => decodeHex buf
      | .error _ => .panicked "failed to read hex from stdin"

theorem mainWith_eq (w : World) (others : List String) (sequence : Bool) :
    mainWith w others sequence = w.run (requestOf others sequence) := by
  unfold mainWith requestOf
  by_cases hjson : "--from-json" ∈ others
  · obtain ⟨pos, rest, hremove, hpath, -⟩ := removeFlag_following hjson
    rw [if_pos hjson, hremove, ← hpath]
    simp only
    cases rest[pos]? <;> rfl
  · rw [if_neg hjson, removeFlag_of_not_mem hjson]
    by_cases hx509 : "--from-x509" ∈ others
    · obtain ⟨pos, rest, hremove, hpath, -⟩ := removeFlag_following hx509
      rw [if_pos hx509, hremove, ← hpath]
      simp only
      cases rest[pos]? <;> rfl
    · rw [if_neg hx509, removeFlag_of_not_mem hx509]
      simp only
      cases others.head? <;> rfl

/-- **The program does what its arguments ask for.** -/
theorem main_eq (w : World) (args : List String) : main w args = w.run (request args) := by
  unfold main request
  have hany : (args.any fun a => a == "--help" || a == "-h") = true ↔
      "--help" ∈ args ∨ "-h" ∈ args := by
    simp only [List.any_eq_true, Bool.or_eq_true, beq_iff_eq]
    constructor
    · rintro ⟨a, ha, rfl | rfl⟩
      · exact Or.inl ha
      · exact Or.inr ha
    · rintro (h | h)
      · exact ⟨_, h, Or.inl rfl⟩
      · exact ⟨_, h, Or.inr rfl⟩
  by_cases hhelp : "--help" ∈ args ∨ "-h" ∈ args
  · rw [if_pos hhelp, if_pos (hany.mpr hhelp)]
    rfl
  · rw [if_neg hhelp, if_neg fun h => hhelp (hany.mp h)]
    by_cases hsequence : "--sequence" ∈ args
    · obtain ⟨pos, rest, hremove, -, hrest⟩ := removeFlag_following hsequence
      rw [hremove, decide_eq_true hsequence, ← hrest]
      exact mainWith_eq w rest true
    · rw [removeFlag_of_not_mem hsequence, decide_eq_false hsequence,
        List.erase_of_not_mem hsequence]
      exact mainWith_eq w args false

/--
**`--sequence` may stand anywhere**, and it changes nothing where no certificate is built.
-/
theorem main_sequence_anywhere (w : World) {l r l' r' : List String} (hargs : l ++ r = l' ++ r')
    (h : "--sequence" ∉ l ++ r) :
    main w (l ++ "--sequence" :: r) = main w (l' ++ "--sequence" :: r') ∧
      ("--from-json" ∉ l ++ r → "--from-x509" ∉ l ++ r →
        main w (l ++ "--sequence" :: r) = main w (l ++ r)) := by
  have hmem : ∀ flag : String, flag ≠ "--sequence" → ∀ l r : List String,
      (flag ∈ l ++ "--sequence" :: r ↔ flag ∈ l ++ r) := by
    intro flag hne l r
    simp [hne]
  have hrequest : ∀ l r : List String, "--sequence" ∉ l ++ r →
      request (l ++ "--sequence" :: r) =
        if "--help" ∈ l ++ r ∨ "-h" ∈ l ++ r then .help else requestOf (l ++ r) true := by
    intro l r hnot
    have hl : "--sequence" ∉ l := fun hl => hnot (List.mem_append_left _ hl)
    unfold request
    rw [List.erase_append_right _ hl, List.erase_cons_head, decide_eq_true (by simp)]
    simp only [hmem "--help" (by decide), hmem "-h" (by decide)]
  refine ⟨?_, fun hjson hx509 => ?_⟩
  · rw [main_eq, main_eq, hrequest l r h, hrequest l' r' (hargs ▸ h), hargs]
  · rw [main_eq, main_eq, hrequest l r h, request, List.erase_of_not_mem h]
    simp only [requestOf, if_neg hjson, if_neg hx509]

end

/-! ### Hex -/

theorem filter_dropWhile {α : Type} {p : α → Bool} (l : List α) :
    (l.dropWhile p).filter (fun c => !p c) = l.filter fun c => !p c := by
  induction l with
  | nil => rfl
  | cons a l ih =>
      by_cases ha : p a = true
      · rw [List.dropWhile_cons_of_pos ha, ih, List.filter_cons_of_neg (by simp [ha])]
      · rw [List.dropWhile_cons_of_neg ha]

/-- Trimming takes nothing that cleaning leaves. -/
theorem cleaned_trim (s : String) : cleaned (trim s) = cleaned s := by
  unfold cleaned trim List.rdropWhile
  rw [String.toList_ofList, List.filter_reverse, filter_dropWhile, ← List.filter_reverse,
    List.reverse_reverse, filter_dropWhile]

section

variable [Minicbor] [JsonCrates] [MainCrates]

/-- What is written in hex is read back, and holds no whitespace. -/
class LawfulMainCrates : Prop where
  hexDecode_hexEncode (b : Bytes) : JsonCrates.hexDecode (MainCrates.hexEncode b) = .ok b
  hexEncode_digits (b : Bytes) : ∀ c ∈ (MainCrates.hexEncode b).toList, isWhitespace c = false

variable [LawfulMainCrates]

/-- The hex of some bytes, with whitespace anywhere in it. -/
theorem hexDecode_of_cleaned {s : String} {b : Bytes} (h : cleaned s = MainCrates.hexEncode b) :
    hexDecode (trim s) = .ok b := by
  rw [hexDecode, cleaned_trim, h]
  exact LawfulMainCrates.hexDecode_hexEncode b

end

/-! ### Either form -/

section

variable [Minicbor] [OidCrate]

theorem decodeCertificate_of_startsArray {b : Bytes} (h : C509Certificate.StartsArray b) :
    decodeCertificate b = C509Certificate.decode b := by
  unfold decodeCertificate
  rcases h with h | h <;> rw [h]

theorem decodeCertificate_of_not_startsArray {b : Bytes} (h : ¬ C509Certificate.StartsArray b) :
    decodeCertificate b = C509Certificate.decodeSequence b := by
  unfold decodeCertificate
  split
  · exact absurd (Or.inl ‹_›) h
  · exact absurd (Or.inr ‹_›) h
  · rfl

variable [LawfulMinicbor]

/--
**The first item decides rightly.**  Whatever either decoder accepts is accepted, as the same
certificate, and no input is accepted by both.
-/
theorem decodeCertificate_ok_iff (b : Bytes) :
    (∀ c, decodeCertificate b = .ok c ↔
      C509Certificate.decode b = .ok c ∨ C509Certificate.decodeSequence b = .ok c) ∧
    ¬ ((∃ c, C509Certificate.decode b = .ok c) ∧
      ∃ c, C509Certificate.decodeSequence b = .ok c) := by
  refine ⟨fun c => ⟨fun h => ?_, ?_⟩, ?_⟩
  · by_cases hstarts : C509Certificate.StartsArray b
    · exact Or.inl (decodeCertificate_of_startsArray hstarts ▸ h)
    · exact Or.inr (decodeCertificate_of_not_startsArray hstarts ▸ h)
  · rintro (h | h)
    · exact (decodeCertificate_of_startsArray
        (C509Certificate.startsArray_of_decode h)).trans h
    · exact (decodeCertificate_of_not_startsArray
        (C509Certificate.not_startsArray_of_decodeSequence h)).trans h
  · rintro ⟨⟨c, hc⟩, c', hc'⟩
    exact C509Certificate.not_startsArray_of_decodeSequence hc'
      (C509Certificate.startsArray_of_decode hc)

/-! ### Where decoding panics -/

variable [ElementSizes]

/-- In its form, the input comes to a header that overflows an allocation. -/
def HeaderOverflows (b : Bytes) : Prop :=
  C509Certificate.ItemAnnounces (Reserve.Overflows ElementSizes.size) b ∨
    C509Certificate.FieldsAnnounce (Reserve.Overflows ElementSizes.size) b

omit [OidCrate] [LawfulMinicbor] in
theorem decodeFrontOrPanic_cases {m : Dec C509Certificate} {b : Bytes} {P : Prop}
    (hpanics : (∃ msg, decodeOrPanic ElementSizes.size m b = .panicked msg) ↔ P) :
    (P ∧ ∃ msg, C509Certificate.decodeFrontOrPanic m b = .panicked msg) ∨
      (¬ P ∧ C509Certificate.decodeFrontOrPanic m b =
        .returned (C509Certificate.decodeFront m b)) := by
  unfold C509Certificate.decodeFrontOrPanic C509Certificate.decodeFront
  rw [← hpanics]
  cases hrun : decodeOrPanic ElementSizes.size m b with
  | panicked msg => exact Or.inl ⟨⟨msg, rfl⟩, msg, rfl⟩
  | returned x =>
      refine Or.inr ⟨nofun, ?_⟩
      unfold decodeOrPanic at hrun
      split at hrun
      · cases hrun
        cases m.run b <;> rfl
      · cases hrun

/-- A decoder comes to a header in its own form only. -/
theorem headerOverflows_iff (b : Bytes) :
    (C509Certificate.StartsArray b → (HeaderOverflows b ↔
      C509Certificate.ItemAnnounces (Reserve.Overflows ElementSizes.size) b)) ∧
    (¬ C509Certificate.StartsArray b → (HeaderOverflows b ↔
      C509Certificate.FieldsAnnounce (Reserve.Overflows ElementSizes.size) b)) := by
  refine ⟨fun hstarts => or_iff_left ?_, fun hstarts => or_iff_right ?_⟩
  · rintro ⟨n, r, hread, -⟩
    exact C509Certificate.not_startsArray_of_readI32 hread hstarts
  · rintro ⟨n, h, r, hh, -, rfl⟩
    have htype := typeOf_head (by decide) (by decide) hh r
    exact hstarts (Or.inl (LawfulMinicbor.datatype_ok.mpr htype))

/-- **The program's decoder panics at a header that overflows, and otherwise returns what
`decode_certificate` does.** -/
theorem decodeCertificateOrPanic_cases (b : Bytes) :
    (HeaderOverflows b ∧ ∃ msg, decodeCertificateOrPanic b = .panicked msg) ∨
      (¬ HeaderOverflows b ∧ decodeCertificateOrPanic b = .returned (decodeCertificate b)) := by
  obtain ⟨hitem, hfields⟩ := C509Certificate.decode_panics_iff ElementSizes.size b
  by_cases hstarts : C509Certificate.StartsArray b
  · have hrun : decodeCertificateOrPanic b =
        C509Certificate.decodeFrontOrPanic C509Certificate.decodeItem b := by
      unfold decodeCertificateOrPanic
      rcases hstarts with h | h <;> rw [h]
    rw [hrun, decodeCertificate_of_startsArray hstarts]
    exact decodeFrontOrPanic_cases (hitem.trans ((headerOverflows_iff b).1 hstarts).symm)
  · have hrun : decodeCertificateOrPanic b =
        C509Certificate.decodeFrontOrPanic C509Certificate.decodeFields b := by
      unfold decodeCertificateOrPanic
      split
      · exact absurd (Or.inl ‹_›) hstarts
      · exact absurd (Or.inr ‹_›) hstarts
      · rfl
    rw [hrun, decodeCertificate_of_not_startsArray hstarts]
    exact decodeFrontOrPanic_cases (hfields.trans ((headerOverflows_iff b).2 hstarts).symm)

theorem decodeCertificateOrPanic_returned {b : Bytes} {x : Except Error C509Certificate}
    (h : decodeCertificateOrPanic b = .returned x) : decodeCertificate b = x := by
  rcases decodeCertificateOrPanic_cases b with ⟨-, msg, hpanic⟩ | ⟨-, hreturn⟩
  · cases hpanic.symm.trans h
  · exact Outcome.returned.inj (hreturn.symm.trans h)

/-- What is accepted returns, where three times the input's elements fit an allocation. -/
theorem decodeCertificateOrPanic_accepted [LawfulOid] {b : Bytes} {c : C509Certificate} {s : Nat}
    (hs : ∀ site, ElementSizes.size site ≤ s) (hfits : 3 * b.length * s ≤ ISIZE_MAX)
    (h : decodeCertificate b = .ok c) : decodeCertificateOrPanic b = .returned (.ok c) := by
  obtain ⟨hitem, hfields⟩ := C509Certificate.decode_accepted_memory hs hfits
  have hno : ¬ HeaderOverflows b := by
    obtain ⟨hitem', hfields'⟩ := C509Certificate.decode_panics_iff ElementSizes.size b
    rcases ((decodeCertificate_ok_iff b).1 c).mp h with hdec | hdec
    · obtain ⟨r, hrun⟩ := C509Certificate.decodeFront_ok.mp hdec
      rw [(headerOverflows_iff b).1 (C509Certificate.startsArray_of_decode hdec), ← hitem']
      rintro ⟨msg, hpanic⟩
      cases hpanic.symm.trans (hitem _ hrun).1
    · obtain ⟨r, hrun⟩ := C509Certificate.decodeFront_ok.mp hdec
      rw [(headerOverflows_iff b).2 (C509Certificate.not_startsArray_of_decodeSequence hdec),
        ← hfields']
      rintro ⟨msg, hpanic⟩
      cases hpanic.symm.trans (hfields _ hrun).1
  rcases decodeCertificateOrPanic_cases b with ⟨hover, -⟩ | ⟨-, hreturn⟩
  · exact absurd hover hno
  · rw [hreturn, h]

end

/-! ### From one run to the next -/

section

variable [Minicbor] [OidCrate] [ElementSizes] [JsonCrates] [MainCrates] [MacCrate] [X509Parser]

/-- A run that builds `c`, to be printed in the form asked for. -/
def Builds (w : World) (args : List String) (sequence : Bool) (c : C509Certificate) : Prop :=
  (∃ path text, request args = .fromJson (some path) sequence ∧
    w.readToString path = .ok text ∧ fromJson text = .ok c) ∨
  ∃ path bytes, request args = .fromX509 (some path) sequence ∧
    w.read path = .ok bytes ∧ fromX509 bytes = .ok c

omit [Minicbor] [OidCrate] [JsonCrates] [MainCrates] [MacCrate] [X509Parser] in
/-- A run that decodes a text, from its arguments or from standard input. -/
def Decodes (w : World) (args : List String) (text : String) : Prop :=
  request args = .decode (some text) ∨ request args = .decode none ∧ w.stdin = .ok text

theorem main_of_builds {w : World} {args : List String} {sequence : Bool} {c : C509Certificate}
    (h : Builds w args sequence c) : main w args = printEncoded c sequence := by
  rcases h with ⟨path, text, hargs, hread, hc⟩ | ⟨path, bytes, hargs, hread, hc⟩
  · rw [main_eq, hargs, World.run, encodeFromJson, hread]
    simp only [hc]
  · rw [main_eq, hargs, World.run, convertFromX509, hread]
    simp only [hc]

theorem main_of_decodes {w : World} {args : List String} {text : String}
    (h : Decodes w args text) : main w args = decodeHex text := by
  rcases h with hargs | ⟨hargs, hstdin⟩
  · rw [main_eq, hargs, World.run]
  · rw [main_eq, hargs, World.run, hstdin]

omit [MacCrate] [X509Parser] in
theorem decodeHex_certificate {text : String} {c : C509Certificate}
    (h : decodeHex text = .certificate c) :
    ∃ b, hexDecode (trim text) = .ok b ∧ decodeCertificateOrPanic b = .returned (.ok c) := by
  unfold decodeHex at h
  split at h
  · cases h
  · split at h
    · cases h
      exact ⟨_, ‹_›, ‹_›⟩
    · cases h
    · cases h

variable [LawfulMinicbor] [LawfulOid]

omit [ElementSizes] [JsonCrates] [MainCrates] [MacCrate] [X509Parser] in
/-- One form is enough to tell whether a certificate survives the wire. -/
theorem wireConsistent_iff_decodeCertificate {c : C509Certificate} (sequence : Bool)
    (hback : c.Valid .decoded → c.Valid .readBack) :
    (∃ b, (if sequence then c.encodeSequence else c.encode) = .returned b ∧
      decodeCertificate b = .ok c) ↔ c.WireConsistent .readBack := by
  rw [← C509Certificate.roundTrips_iff hback]
  constructor
  · rintro ⟨b, henc, hdec⟩
    obtain ⟨hiff, hone⟩ := decodeCertificate_ok_iff b
    have hvalid : c.Valid .readBack := hback (((hiff c).mp hdec).elim
      C509Certificate.valid_of_decode C509Certificate.valid_of_decodeSequence)
    have hfits : c.tbs.extensions.Encodable := by
      cases sequence with
      | true => exact C509Certificate.encodable_of_encodeSequence hvalid henc
      | false => exact C509Certificate.encodable_of_encode hvalid henc
    obtain ⟨b₁, henc₁, hdec₁⟩ := C509Certificate.decode_encode hvalid hfits
    obtain ⟨b₂, henc₂, hdec₂⟩ := C509Certificate.decodeSequence_encodeSequence hvalid hfits
    -- what is read back of either form is the normal form
    have hnormal : c.normalise = c := by
      cases sequence with
      | true =>
          cases henc₂.symm.trans henc
          exact Except.ok.inj (((hiff _).mpr (Or.inr hdec₂)).symm.trans hdec)
      | false =>
          cases henc₁.symm.trans henc
          exact Except.ok.inj (((hiff _).mpr (Or.inl hdec₁)).symm.trans hdec)
    rw [hnormal] at hdec₁ hdec₂
    exact ⟨⟨b₁, henc₁, hdec₁⟩, b₂, henc₂, hdec₂⟩
  · rintro ⟨⟨b₁, henc₁, hdec₁⟩, b₂, henc₂, hdec₂⟩
    cases sequence with
    | true => exact ⟨b₂, henc₂, ((decodeCertificate_ok_iff b₂).1 c).mpr (Or.inr hdec₂)⟩
    | false => exact ⟨b₁, henc₁, ((decodeCertificate_ok_iff b₁).1 c).mpr (Or.inl hdec₁)⟩

omit [OidCrate] [ElementSizes] [MainCrates] [LawfulMinicbor] [LawfulOid] in
/-- Whatever a run builds is of the shape of what is converted. -/
theorem Builds.converted {w : World} {args : List String} {sequence : Bool} {c : C509Certificate}
    (h : Builds w args sequence c) : c.Converted := by
  rcases h with ⟨path, text, -, -, hc⟩ | ⟨path, bytes, -, -, hc⟩
  · unfold fromJson at hc
    split at hc
    · exact JsonCertificate.intoCertificate_converted hc
    · cases hc
  · obtain ⟨cert, -, hconvert⟩ := fromX509_ok_iff.mp hc
    exact convertCertificate_converted hconvert

/--
**What the program prints it reads.**  A run that builds a certificate, from JSON or X.509
and in either form, prints a line from which any run that is given it, on the command line or
on standard input and with whitespace anywhere in it, decodes that certificate, exactly where
the wire can express the certificate.  The line is one whose elements fit an allocation three
times.
-/
theorem main_roundTrips_iff [LawfulMainCrates] {w : World} {args : List String} {sequence : Bool}
    {c : C509Certificate} (h : Builds w args sequence c) {s : Nat}
    (hs : ∀ site, ElementSizes.size site ≤ s)
    (hfits : ∀ b, (if sequence then c.encodeSequence else c.encode) = .returned b →
      3 * b.length * s ≤ ISIZE_MAX) :
    (∃ line, main w args = .printed line ∧ ∀ w' args' text, Decodes w' args' text →
      cleaned text = line → main w' args' = .certificate c) ↔ c.WireConsistent .readBack := by
  rw [main_of_builds h, ← wireConsistent_iff_decodeCertificate sequence h.converted.valid]
  constructor
  · rintro ⟨line, hprinted, hruns⟩
    unfold printEncoded at hprinted
    split at hprinted
    · rename_i bytes henc
      cases hprinted
      have hclean := cleaned_eq_self (LawfulMainCrates.hexEncode_digits bytes)
      -- the line on standard input, and no arguments
      have hrun := hruns { w with stdin := .ok (MainCrates.hexEncode bytes) } []
        (MainCrates.hexEncode bytes) (Or.inr ⟨rfl, rfl⟩) hclean
      rw [main_of_decodes (Or.inr ⟨rfl, rfl⟩)] at hrun
      obtain ⟨b, hb, hdec⟩ := decodeHex_certificate hrun
      obtain rfl : b = bytes := Except.ok.inj (hb.symm.trans (hexDecode_of_cleaned hclean))
      exact ⟨b, henc, decodeCertificateOrPanic_returned hdec⟩
    · cases hprinted
  · rintro ⟨bytes, henc, hdec⟩
    refine ⟨MainCrates.hexEncode bytes, by rw [printEncoded, henc], ?_⟩
    intro w' args' text hdecodes hclean
    have hreturn := decodeCertificateOrPanic_accepted hs (hfits bytes henc) hdec
    rw [main_of_decodes hdecodes, decodeHex, hexDecode_of_cleaned hclean]
    simp only [hreturn]

/-! ### Panics -/

end

/-! ### A run -/

namespace Reference

@[reducible] def mainCrates : MainCrates where
  hexEncode := lowerHex
  displayErr _ := "unexpected type"

/-- Elements of 24 bytes, as a string is. -/
@[reducible] def elementSizes : ElementSizes := ⟨fun _ => 24⟩

theorem mainCrates_lawful : @LawfulMainCrates _ hexJson mainCrates :=
  let _ := hexJson
  let _ := mainCrates
  { hexDecode_hexEncode := hexDecodeText_lowerHex
    hexEncode_digits := lowerHex_digits }

/-- A directory with one document in it. -/
def directory : World where
  readToString path :=
    if path = "cert.json" then .ok printableEmailText
    else .error "No such file or directory (os error 2)"
  read _ := .error "No such file or directory (os error 2)"
  stdin := .ok ""

end Reference

open scoped Reference in
/-- The sample in either form. -/
theorem decodeCertificate_ok_iff_sample :
    decodeCertificate C509Certificate.sampleBytes = .ok .sample ∧
      decodeCertificate ([0x98, 0x0b] ++ C509Certificate.sampleBytes) = .ok .sample :=
  ⟨((decodeCertificate_ok_iff _).1 .sample).mpr (Or.inr C509Certificate.sample_decodes),
    ((decodeCertificate_ok_iff _).1 .sample).mpr (Or.inl rfl)⟩

open scoped Reference in
/-- The document with a printable e-mail address, from a file. -/
theorem main_roundTrips_iff_email : ∃ (_ : JsonCrates) (_ : MainCrates) (_ : ElementSizes), ∃ c,
    Builds Reference.directory ["--from-json", "cert.json"] false c ∧
      ((∃ line, main Reference.directory ["--from-json", "cert.json"] = .printed line ∧
        ∀ w' args' text, Decodes w' args' text → cleaned text = line →
          main w' args' = .certificate c) ↔ c.WireConsistent .readBack) := by
  let _ := Reference.hexJson
  let _ := Reference.mainCrates
  let _ := Reference.elementSizes
  have := Reference.mainCrates_lawful
  have hdoc : JsonCrates.fromStr printableEmailText = .ok (.small true (.keyUsage false 5)) :=
    fromStr_printableEmail
  obtain ⟨c, hc, b, henc, hlen⟩ : ∃ c, fromJson printableEmailText = .ok c ∧
      ∃ b, c.encode = .returned b ∧ 3 * b.length * 24 ≤ ISIZE_MAX :=
    ⟨_, (fromJson_eq hdoc).trans rfl, _, rfl, by decide⟩
  have hbuilds : Builds Reference.directory ["--from-json", "cert.json"] false c :=
    Or.inl ⟨"cert.json", printableEmailText, by decide, rfl, hc⟩
  refine ⟨Reference.hexJson, Reference.mainCrates, Reference.elementSizes, c, hbuilds,
    main_roundTrips_iff (s := 24) hbuilds (fun _ => Nat.le_refl 24) fun b' henc' => ?_⟩
  cases henc.symm.trans henc'
  exact hlen

end C509
