import CharGrammar.Words.ChaCha

namespace CharGrammar

inductive Generator where
  | given (words : List UInt32)
  | congruential (state : UInt32)
  | chaCha (stream : ChaCha.Stream)

namespace Generator

def ofSeed (seed : UInt64) : Generator := .chaCha (.ofSeed seed)

/-- Given words are followed by zeros. -/
instance : WordSource Generator where
  next
    | given [] => (0, given [])
    | given (word :: rest) => (word, given rest)
    | congruential state =>
      let state := state * 1664525 + 1013904223
      (state, congruential state)
    | chaCha stream =>
      let (word, stream) := WordSource.next stream
      (word, chaCha stream)

end Generator

end CharGrammar
