import AmigaBinary.Md5

/-!
# Recognising loaders

A loader is recognised by the digest of its code. Some of its longwords are filled in by the
compiler; they are blanked first, where the length of the loader is one of a known release.
-/

namespace AmigaBinary.Loader

/-! ## 1. Digests -/

/-- The bytes with `length` of them set to zero, from `offset` on. -/
def blank (offset length : Nat) (bytes : Bytes) : Bytes :=
  bytes.take offset ++ List.replicate length 0 ++ bytes.drop (offset + length)

/-- The length of the loaders of a family. -/
def lengths : Loader → List Nat
  | .classic => [2764, 2804, 2292]
  | .pro => [2888]

/-- A loader with the fields blanked that the compiler fills in. -/
def blanked (loader : Bytes) : Bytes :=
  if (lengths .pro).contains loader.length then blank 8 4 (blank 2 4 loader)
  else if (lengths .classic).contains loader.length then blank 2 2 loader
  else loader

/-- The digest by which a loader is recognised. -/
def digest (loader : Bytes) : String :=
  Md5.hexDigest (blanked loader)

/-! ## 2. Families -/

/-- The digests of the loaders of a family. -/
def digests : Loader → List String
  | .classic =>
      ["0dbe48a6071ec6beae4239d26e7e8309", "2680a6b417c606c6fb6d6235cb127e7f",
       "7fcfb0d746a79495e277d9d08adc5e24"]
  | .pro => ["ddf9a12877a328162cecef459d9765a5"]

/-- The family of a loader. -/
def identify (loader : Bytes) : Except Error Loader :=
  let hash := digest loader
  if (digests .pro).contains hash then .ok .pro
  else if (digests .classic).contains hash then .ok .classic
  else .error (.unknownLoader hash)

/-- Whether a code hunk is a loader. -/
def isKnown (code : Bytes) : Bool :=
  (identify code).isOk

end AmigaBinary.Loader
