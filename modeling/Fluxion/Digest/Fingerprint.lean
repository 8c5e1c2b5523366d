import Fluxion.Digest.Blake2b

/-!
# Fingerprints

A request is known by a fingerprint of its canonical text, its variable and the
tag of what is asked for. The parts are joined with a separator that none of
them holds, so requests that differ in a part have different messages.
-/

namespace Fluxion.Digest

def separator : Char := '\x1f'

def fingerprintSize : Nat := 16

def requestMessage (text x tag : String) : List Char :=
  text.toList ++ separator :: x.toList ++ separator :: tag.toList

def requestBytes (text x tag : String) : List UInt8 :=
  (String.ofList (requestMessage text x tag)).toUTF8.data.toList

def fingerprint (text x tag : String) : String :=
  Blake2b.hexText (Blake2b.digest fingerprintSize (requestBytes text x tag))

end Fluxion.Digest
