import Nominal.Type.Basic

/-!
# Digests of types

A digest is computed from the digests of the parts and from what equality looks at, so equal types
have equal digests whatever the hash function. Every constructor first feeds a tag, and optional
parts feed whether they are there.
-/

namespace Nominal

/-- What a hash function is fed. -/
inductive Chunk (δ : Type) where
  | tag (constructor : Nat)
  | text (value : String)
  | digest (value : δ)
  | absent
  | present (value : δ)

namespace Ty

mutual
/-- The digest of a type under a hash function. -/
def digest {δ : Type} (hashOf : List (Chunk δ) → δ) : Ty → δ
  | .named head => hashOf [.tag 0, .text head.name]
  | .applied owner raw args =>
      hashOf ([.tag 1, digestOption hashOf owner, .text raw.name] ++ digestList hashOf args)
  | .array component => hashOf [.tag 2, .digest (digest hashOf component)]
  | .var param => hashOf [.tag 3, .text param.name, .text param.declaration]
  | .wildcard upper lower =>
      hashOf [.tag 4, .digest (digest hashOf upper), digestOption hashOf lower]

/-- What an optional part feeds. -/
def digestOption {δ : Type} (hashOf : List (Chunk δ) → δ) : Option Ty → Chunk δ
  | none => .absent
  | some t => .present (digest hashOf t)

/-- What a list of parts feeds. -/
def digestList {δ : Type} (hashOf : List (Chunk δ) → δ) : List Ty → List (Chunk δ)
  | [] => []
  | first :: rest => .digest (digest hashOf first) :: digestList hashOf rest
end

end Ty

/-- The hash of a chunk whose digests are words. -/
def Chunk.hash64 : Chunk UInt64 → UInt64
  | .tag constructor => mixHash 11 (hash constructor)
  | .text value => mixHash 13 (hash value)
  | .digest value => mixHash 17 value
  | .absent => 19
  | .present value => mixHash 23 value

/-- The hash of a sequence of chunks. -/
def Chunk.hashAll (chunks : List (Chunk UInt64)) : UInt64 :=
  chunks.foldl (fun acc chunk => mixHash acc chunk.hash64) 7

/-- Types are hashed by their digest. -/
instance : Hashable Ty where
  hash := Ty.digest Chunk.hashAll

end Nominal
