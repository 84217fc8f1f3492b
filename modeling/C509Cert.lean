import C509Cert.Extensions.Conformance
import C509Cert.Codec.Cddl
import C509Cert.DefiniteArrays
import C509Cert.Codec.Agree
import C509Cert.X509ToC509.Names
import C509Cert.NameRoundTrip
import C509Cert.Extensions.AddressStability
import C509Cert.Extensions.AddressForms
import C509Cert.Extensions.AddressWire
import C509Cert.Extensions.AsIdentifiers
import C509Cert.Extensions.Arithmetic
import C509Cert.Codec.Delta
import C509Cert.Extensions.WireForms
import C509Cert.Codec.Denotes
import C509Cert.JsonMirror
import C509Cert.SerdeUtil
import C509Cert.TextCrates
import C509Cert.Net.IpText
import C509Cert.Serde.Mirror
import C509Cert.Minicbor.Reference
import C509Cert.Extensions.Criticality
import C509Cert.Invariants
import C509Cert.Framing
import C509Cert.Capacity
import C509Cert.CertJson
import C509Cert.CertJson.Heeded
import C509Cert.X509ToC509.RoundTrip
import C509Cert.X509ToC509.Detection
import C509Cert.Allocation
import C509Cert.DeterministicOutput
import C509Cert.Composition
import C509Cert.Registry
import C509Cert.Main
import C509Cert.Truncation
import C509Cert.Exchange
import C509Cert.Writable.Converted
