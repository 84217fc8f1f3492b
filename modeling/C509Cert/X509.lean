/-
X.509 certificates, as the parser hands them over.

The parser (`x509-parser`, over `asn1-rs` and `oid-registry`) belongs to other crates.  Its
values are modelled by what the converter reads of them; its functions enter as a class,
and what the converter relies on as the laws of that class.
-/
import C509Cert.External
import C509Cert.Minicbor

namespace C509

open Cbor

namespace X509

/-! ### Values -/

/-- `asn1_rs::Oid`, by its content octets. -/
structure Oid where
  octets : Bytes
  deriving DecidableEq

/-- `asn1_rs::oid!` -/
def oid (arcs : List UInt32) : Oid := ⟨OidCrate.toOctets ⟨arcs⟩⟩

/-- `asn1_rs::Tag` -/
structure Tag where
  num : UInt32
  deriving DecidableEq

def Tag.PrintableString : Tag := ⟨19⟩

/-- `asn1_rs::Any` -/
structure Any where
  tag : Tag
  data : Bytes
  deriving DecidableEq

/-- `x509_parser::x509::AlgorithmIdentifier` -/
structure AlgorithmIdentifier where
  algorithm : Oid
  parameters : Option Any
  deriving DecidableEq

/-- `AttributeTypeAndValue` -/
structure Attribute where
  attrType : Oid
  attrValue : Any
  deriving DecidableEq

/-- `X509Name`: relative names, each a set of attributes. -/
structure X509Name where
  rdnSeq : List (List Attribute)
  deriving DecidableEq

/-- `x509_parser::extensions::GeneralName`, by what the converter tells apart. -/
inductive GeneralName
  | dnsName (s : String)
  | other (name : Any)
  deriving DecidableEq

structure BasicConstraints where
  ca : Bool
  pathLenConstraint : Option UInt32
  deriving DecidableEq

structure KeyUsage where
  flags : UInt16
  deriving DecidableEq

structure ExtendedKeyUsage where
  any : Bool
  serverAuth : Bool
  clientAuth : Bool
  codeSigning : Bool
  emailProtection : Bool
  timeStamping : Bool
  ocspSigning : Bool
  other : List Oid
  deriving DecidableEq

structure SubjectAlternativeName where
  generalNames : List GeneralName
  deriving DecidableEq

structure AuthorityKeyIdentifier where
  keyIdentifier : Option Bytes
  authorityCertIssuer : Option (List GeneralName)
  authorityCertSerial : Option Bytes
  deriving DecidableEq

/-- `ParsedExtension`: the five forms the converter reads, and any other, unparsed ones
included, by its octets. -/
inductive ParsedExtension
  | basicConstraints (bc : BasicConstraints)
  | keyUsage (ku : KeyUsage)
  | extendedKeyUsage (eku : ExtendedKeyUsage)
  | subjectAlternativeName (san : SubjectAlternativeName)
  | authorityKeyIdentifier (aki : AuthorityKeyIdentifier)
  | other (value : Bytes)
  deriving DecidableEq

/-- `X509Extension` -/
structure X509Extension where
  oid : Oid
  critical : Bool
  parsedExtension : ParsedExtension
  deriving DecidableEq

/-- `Validity` -/
structure Validity where
  notBefore : OffsetDateTime
  notAfter : OffsetDateTime
  deriving DecidableEq

/-- `SubjectPublicKeyInfo` -/
structure SubjectPki where
  algorithm : AlgorithmIdentifier
  subjectPublicKey : Bytes
  deriving DecidableEq

/-- `x509_parser::certificate::TbsCertificate` -/
structure TbsCertificate where
  rawSerial : Bytes
  issuer : X509Name
  validity : Validity
  subject : X509Name
  subjectPki : SubjectPki
  extensions : List X509Extension
  deriving DecidableEq

/-! ### What is held in memory

A string has fewer than `2^64` bytes, and a list of names, which take more than two bytes
each, fewer than `2^63` elements.
-/

def X509Name.InMemory (name : X509Name) : Prop := name.rdnSeq.flatten.length * 2 < 2 ^ 64

def ParsedExtension.InMemory : ParsedExtension → Prop
  | .subjectAlternativeName san =>
      san.generalNames.length * 2 < 2 ^ 64 ∧
        ∀ s, .dnsName s ∈ san.generalNames → (utf8 s).length < 2 ^ 64
  | .authorityKeyIdentifier aki => ∀ b ∈ aki.keyIdentifier, b.length < 2 ^ 64
  | _ => True

structure TbsCertificate.InMemory (tbs : TbsCertificate) : Prop where
  serial : tbs.rawSerial.length < 2 ^ 64
  issuer : tbs.issuer.InMemory
  subject : tbs.subject.InMemory
  publicKey : tbs.subjectPki.subjectPublicKey.length < 2 ^ 64
  extensions : ∀ e ∈ tbs.extensions, e.parsedExtension.InMemory

/-- `x509_parser::certificate::X509Certificate`, held in memory. -/
structure X509Certificate where
  tbsCertificate : TbsCertificate
  signatureAlgorithm : AlgorithmIdentifier
  signatureValue : Bytes
  tbsInMemory : tbsCertificate.InMemory
  signatureInMemory : signatureValue.length < 2 ^ 64

/-! ### Object identifiers (`oid-registry`) -/

def OID_X509_EXT_KEY_USAGE : Oid := oid [2, 5, 29, 15]
def OID_X509_EXT_SUBJECT_ALT_NAME : Oid := oid [2, 5, 29, 17]
def OID_X509_EXT_BASIC_CONSTRAINTS : Oid := oid [2, 5, 29, 19]
def OID_X509_EXT_AUTHORITY_KEY_IDENTIFIER : Oid := oid [2, 5, 29, 35]
def OID_X509_EXT_EXTENDED_KEY_USAGE : Oid := oid [2, 5, 29, 37]

def OID_SIG_ECDSA_WITH_SHA256 : Oid := oid [1, 2, 840, 10045, 4, 3, 2]
def OID_SIG_ECDSA_WITH_SHA384 : Oid := oid [1, 2, 840, 10045, 4, 3, 3]
def OID_SIG_ECDSA_WITH_SHA512 : Oid := oid [1, 2, 840, 10045, 4, 3, 4]
def OID_SIG_ED25519 : Oid := oid [1, 3, 101, 112]
def OID_SIG_ED448 : Oid := oid [1, 3, 101, 113]
def OID_PKCS1_RSAENCRYPTION : Oid := oid [1, 2, 840, 113549, 1, 1, 1]
def OID_PKCS1_SHA256WITHRSA : Oid := oid [1, 2, 840, 113549, 1, 1, 11]
def OID_PKCS1_SHA384WITHRSA : Oid := oid [1, 2, 840, 113549, 1, 1, 12]
def OID_PKCS1_SHA512WITHRSA : Oid := oid [1, 2, 840, 113549, 1, 1, 13]

def OID_KEY_TYPE_EC_PUBLIC_KEY : Oid := oid [1, 2, 840, 10045, 2, 1]
def OID_EC_P256 : Oid := oid [1, 2, 840, 10045, 3, 1, 7]
def OID_NIST_EC_P384 : Oid := oid [1, 3, 132, 0, 34]
def OID_NIST_EC_P521 : Oid := oid [1, 3, 132, 0, 35]

def OID_X509_COMMON_NAME : Oid := oid [2, 5, 4, 3]
def OID_X509_SURNAME : Oid := oid [2, 5, 4, 4]
def OID_X509_SERIALNUMBER : Oid := oid [2, 5, 4, 5]
def OID_X509_COUNTRY_NAME : Oid := oid [2, 5, 4, 6]
def OID_X509_LOCALITY_NAME : Oid := oid [2, 5, 4, 7]
def OID_X509_STATE_OR_PROVINCE_NAME : Oid := oid [2, 5, 4, 8]
def OID_X509_STREET_ADDRESS : Oid := oid [2, 5, 4, 9]
def OID_X509_ORGANIZATION_NAME : Oid := oid [2, 5, 4, 10]
def OID_X509_ORGANIZATIONAL_UNIT : Oid := oid [2, 5, 4, 11]
def OID_X509_TITLE : Oid := oid [2, 5, 4, 12]
def OID_X509_BUSINESS_CATEGORY : Oid := oid [2, 5, 4, 15]
def OID_X509_POSTAL_CODE : Oid := oid [2, 5, 4, 17]
def OID_X509_NAME : Oid := oid [2, 5, 4, 41]
def OID_X509_GIVEN_NAME : Oid := oid [2, 5, 4, 42]
def OID_X509_INITIALS : Oid := oid [2, 5, 4, 43]
def OID_X509_GENERATION_QUALIFIER : Oid := oid [2, 5, 4, 44]
def OID_X509_DN_QUALIFIER : Oid := oid [2, 5, 4, 46]
def OID_PKCS9_EMAIL_ADDRESS : Oid := oid [1, 2, 840, 113549, 1, 9, 1]
def OID_PKCS9_UNSTRUCTURED_NAME : Oid := oid [1, 2, 840, 113549, 1, 9, 2]
def OID_USERID : Oid := oid [0, 9, 2342, 19200300, 100, 1, 1]
def OID_DOMAIN_COMPONENT : Oid := oid [0, 9, 2342, 19200300, 100, 1, 25]

/-! ### Functions -/

/-- `BasicExtension`: the content of an extension and its flag. -/
structure BasicExtension (α : Type) where
  critical : Bool
  value : α

/-- `Pem` -/
structure Pem where
  label : String
  contents : Bytes
  deriving DecidableEq

/-- The functions of the parser the converter calls.  Errors are given as they print. -/
class X509Parser where
  /-- `TbsCertificate::get_extension_unique` -/
  getExtensionUnique : TbsCertificate → Oid → Except String (Option X509Extension)
  basicConstraints : TbsCertificate → Except String (Option (BasicExtension BasicConstraints))
  keyUsage : TbsCertificate → Except String (Option (BasicExtension KeyUsage))
  extendedKeyUsage : TbsCertificate → Except String (Option (BasicExtension ExtendedKeyUsage))
  subjectAlternativeName :
    TbsCertificate → Except String (Option (BasicExtension SubjectAlternativeName))
  /-- `X509Name::iter_attributes` -/
  iterAttributes : X509Name → List Attribute
  /-- `AttributeTypeAndValue::as_str` -/
  asStr : Attribute → Except String String
  /-- `Any::oid` -/
  anyOid : Any → Except String Oid
  /-- `Oid`, as it prints -/
  displayOid : Oid → String
  /-- `GeneralName`, as `{:?}` prints it -/
  debugGeneralName : GeneralName → String
  /-- `ParsedExtension`, as `{:?}` prints it -/
  debugParsedExtension : ParsedExtension → String
  /-- `Pem::read`, at the front of an input -/
  pemRead : Bytes → Except String Pem
  /-- `Pem::parse_x509` -/
  parseX509 : Pem → Except String X509Certificate
  /-- `X509Certificate::from_der` -/
  fromDer : Bytes → Except String X509Certificate

/-! ### Laws -/

def ParsedExtension.basicConstraints? : ParsedExtension → Option BasicConstraints
  | .basicConstraints bc => some bc
  | _ => none

def ParsedExtension.keyUsage? : ParsedExtension → Option KeyUsage
  | .keyUsage ku => some ku
  | _ => none

def ParsedExtension.extendedKeyUsage? : ParsedExtension → Option ExtendedKeyUsage
  | .extendedKeyUsage eku => some eku
  | _ => none

def ParsedExtension.subjectAlternativeName? : ParsedExtension → Option SubjectAlternativeName
  | .subjectAlternativeName san => some san
  | _ => none

/-- An extension as one of the typed accessors returns it: nothing, if it did not parse. -/
def X509Extension.typed {α : Type} (form : ParsedExtension → Option α) (e : X509Extension) :
    Option (BasicExtension α) :=
  (form e.parsedExtension).map fun value => ⟨e.critical, value⟩

/-- The extensions with a given identifier. -/
def TbsCertificate.extensionsWith (tbs : TbsCertificate) (oid : Oid) : List X509Extension :=
  tbs.extensions.filter fun e => e.oid = oid

/-- What the converter relies on: an accessor returns an error on a duplicate, and nothing
when the extension is absent or did not parse. -/
class LawfulX509Parser [X509Parser] : Prop where
  unique_absent {tbs : TbsCertificate} {oid : Oid} (h : tbs.extensionsWith oid = []) :
    X509Parser.getExtensionUnique tbs oid = .ok none
  unique_single {tbs : TbsCertificate} {oid : Oid} {e : X509Extension}
    (h : tbs.extensionsWith oid = [e]) : X509Parser.getExtensionUnique tbs oid = .ok (some e)
  unique_duplicate {tbs : TbsCertificate} {oid : Oid}
    (h : 2 ≤ (tbs.extensionsWith oid).length) :
    ∃ err, X509Parser.getExtensionUnique tbs oid = .error err
  basicConstraints_eq (tbs : TbsCertificate) : X509Parser.basicConstraints tbs =
    (X509Parser.getExtensionUnique tbs OID_X509_EXT_BASIC_CONSTRAINTS).map
      (·.bind (X509Extension.typed ParsedExtension.basicConstraints?))
  keyUsage_eq (tbs : TbsCertificate) : X509Parser.keyUsage tbs =
    (X509Parser.getExtensionUnique tbs OID_X509_EXT_KEY_USAGE).map
      (·.bind (X509Extension.typed ParsedExtension.keyUsage?))
  extendedKeyUsage_eq (tbs : TbsCertificate) : X509Parser.extendedKeyUsage tbs =
    (X509Parser.getExtensionUnique tbs OID_X509_EXT_EXTENDED_KEY_USAGE).map
      (·.bind (X509Extension.typed ParsedExtension.extendedKeyUsage?))
  subjectAlternativeName_eq (tbs : TbsCertificate) : X509Parser.subjectAlternativeName tbs =
    (X509Parser.getExtensionUnique tbs OID_X509_EXT_SUBJECT_ALT_NAME).map
      (·.bind (X509Extension.typed ParsedExtension.subjectAlternativeName?))
  iterAttributes_eq (name : X509Name) : X509Parser.iterAttributes name = name.rdnSeq.flatten
  asStr_length {a : Attribute} {s : String} (h : X509Parser.asStr a = .ok s) :
    (utf8 s).length < 2 ^ 64

section

variable [X509Parser] [LawfulX509Parser]

/-- What is returned is the one extension with the identifier, or nothing if there is none. -/
theorem getExtensionUnique_ok {tbs : TbsCertificate} {oid : Oid} {o : Option X509Extension}
    (h : X509Parser.getExtensionUnique tbs oid = .ok o) : tbs.extensionsWith oid = o.toList := by
  match hl : tbs.extensionsWith oid with
  | [] =>
      rw [LawfulX509Parser.unique_absent hl] at h
      cases h
      rfl
  | [e] =>
      rw [LawfulX509Parser.unique_single hl] at h
      cases h
      rfl
  | _ :: _ :: _ =>
      obtain ⟨err, herr⟩ := LawfulX509Parser.unique_duplicate
        (show 2 ≤ (tbs.extensionsWith oid).length by rw [hl]; simp)
      rw [herr] at h
      cases h

/-- A typed accessor reads the one extension with its identifier. -/
theorem typed_ok {α : Type} {form : ParsedExtension → Option α} {tbs : TbsCertificate} {oid : Oid}
    {r : Option (BasicExtension α)}
    (h : (X509Parser.getExtensionUnique tbs oid).map (·.bind (X509Extension.typed form)) = .ok r) :
    ∃ o : Option X509Extension, tbs.extensionsWith oid = o.toList ∧
      r = o.bind (X509Extension.typed form) := by
  cases hunique : X509Parser.getExtensionUnique tbs oid with
  | error e =>
      rw [hunique] at h
      cases h
  | ok o =>
      rw [hunique] at h
      cases h
      exact ⟨o, getExtensionUnique_ok hunique, rfl⟩

end

end X509

/-! ### A parser that can be run -/

namespace X509

/-- `get_extension_unique` -/
def findUnique (tbs : TbsCertificate) (oid : Oid) : Except String (Option X509Extension) :=
  match tbs.extensionsWith oid with
  | [] => .ok none
  | [e] => .ok (some e)
  | _ => .error "duplicate extensions"

def findTyped {α : Type} (form : ParsedExtension → Option α) (oid : Oid) (tbs : TbsCertificate) :
    Except String (Option (BasicExtension α)) :=
  (findUnique tbs oid).map (·.bind (X509Extension.typed form))

/-- The text of an attribute, where it is ASCII. -/
def asciiText (b : Bytes) : Except String String :=
  let s := String.ofList (b.map fun x => Char.ofNat x.toNat)
  if b.all (· < 0x80) ∧ (utf8 s).length < 2 ^ 64 then .ok s else .error "invalid attributes"

end X509

namespace Reference

/-- The accessors as documented, with texts in ASCII; it parses nothing. -/
scoped instance x509Parser : X509.X509Parser where
  getExtensionUnique := X509.findUnique
  basicConstraints :=
    X509.findTyped X509.ParsedExtension.basicConstraints? X509.OID_X509_EXT_BASIC_CONSTRAINTS
  keyUsage := X509.findTyped X509.ParsedExtension.keyUsage? X509.OID_X509_EXT_KEY_USAGE
  extendedKeyUsage :=
    X509.findTyped X509.ParsedExtension.extendedKeyUsage? X509.OID_X509_EXT_EXTENDED_KEY_USAGE
  subjectAlternativeName :=
    X509.findTyped X509.ParsedExtension.subjectAlternativeName? X509.OID_X509_EXT_SUBJECT_ALT_NAME
  iterAttributes name := name.rdnSeq.flatten
  asStr a := X509.asciiText a.attrValue.data
  anyOid a := if a.tag = ⟨6⟩ then .ok ⟨a.data⟩ else .error "unexpected tag"
  displayOid o := toString (o.octets.map UInt8.toNat)
  debugGeneralName _ := "GeneralName"
  debugParsedExtension _ := "ParsedExtension"
  pemRead _ := .error "no PEM"
  parseX509 _ := .error "no DER"
  fromDer _ := .error "no DER"

scoped instance lawfulX509Parser : X509.LawfulX509Parser where
  unique_absent {tbs oid} h := by
    show X509.findUnique tbs oid = _
    rw [X509.findUnique, h]
  unique_single {tbs oid e} h := by
    show X509.findUnique tbs oid = _
    rw [X509.findUnique, h]
  unique_duplicate {tbs oid} h := by
    match hl : tbs.extensionsWith oid with
    | [] => rw [hl] at h; simp at h
    | [_] => rw [hl] at h; simp at h
    | _ :: _ :: _ =>
        refine ⟨"duplicate extensions", ?_⟩
        show X509.findUnique tbs oid = _
        rw [X509.findUnique, hl]
  basicConstraints_eq _ := rfl
  keyUsage_eq _ := rfl
  extendedKeyUsage_eq _ := rfl
  subjectAlternativeName_eq _ := rfl
  iterAttributes_eq _ := rfl
  asStr_length {a s} h := by
    have hascii : X509.asciiText a.attrValue.data = .ok s := h
    simp only [X509.asciiText] at hascii
    split at hascii
    · rename_i hshort
      cases hascii
      exact hshort.2
    · cases hascii

end Reference

end C509
