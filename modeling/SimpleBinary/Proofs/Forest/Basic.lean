import SimpleBinary.Token.Span
import SimpleBinary.Token.Stream

/-!
Forests of tokens.

A well-bracketed list is a forest written in pre-order. `Node` is a tree of the forest, and the signals
of its entries are those of their places in it, so a node cannot be ill-bracketed. What the reader of
token lists does is then said once and for all: it accepts the lists that are forests, and no others
(`Entry.pair_ok`), and the count that an entry is given is the size of its node.
-/

set_option autoImplicit false

namespace SimpleBinary

/-- A signal of a token that has no parts. -/
inductive Atom
  | validValue
  | choice
  | encoding
  deriving DecidableEq, Repr

/-- The signal of a token that has no parts. -/
def Atom.signal : Atom → Signal
  | .validValue => .validValue
  | .choice => .choice
  | .encoding => .encoding

/-- The entry with another signal. -/
def Entry.withSignal (e : Entry) (signal : Signal) : Entry :=
  { e with token := { e.token with signal } }

@[simp] theorem Entry.withSignal_self (e : Entry) : e.withSignal e.token.signal = e := rfl

@[simp] theorem Entry.signal_withSignal (e : Entry) (signal : Signal) :
    (e.withSignal signal).token.signal = signal := rfl

@[simp] theorem Entry.signal_withCount (e : Entry) (count : Nat) :
    (e.withCount count).signal = e.token.signal := by
  rw [withCount]
  split <;> rfl

/-- A tree of entries. -/
inductive Node where
  /-- An entry without parts. -/
  | leaf (atom : Atom) (entry : Entry)
  /-- A construct between the entries that open and close it. -/
  | span (construct : Construct) (opening : Entry) (parts : List Node) (closing : Entry)

namespace Node

mutual

/-- The number of entries of a node. -/
def size : Node → Nat
  | .leaf _ _ => 1
  | .span _ _ parts _ => sizeAll parts + 2

/-- The number of entries of a forest. -/
def sizeAll : List Node → Nat
  | [] => 0
  | n :: rest => n.size + sizeAll rest

end

mutual

/-- The entries of a node, in pre-order. -/
def entries : Node → List Entry
  | .leaf atom e => [e.withSignal atom.signal]
  | .span construct opening parts closing =>
    opening.withSignal (.opens construct) ::
      (entriesAll parts ++ [closing.withSignal (.closes construct)])

/-- The entries of a forest, in pre-order. -/
def entriesAll : List Node → List Entry
  | [] => []
  | n :: rest => n.entries ++ entriesAll rest

end

/-- The token that opens a construct of a number of parts. -/
def openToken (construct : Construct) (opening : Entry) (parts : List Node) : Token :=
  (opening.withSignal (.opens construct)).withCount (sizeAll parts + 2)

/-- The token that closes a construct. -/
def closeToken (construct : Construct) (closing : Entry) : Token :=
  (closing.withSignal (.closes construct)).token

mutual

/-- The tokens of a node, in pre-order. -/
def tokens : Node → List Token
  | .leaf atom e => [(e.withSignal atom.signal).token]
  | .span construct opening parts closing =>
    openToken construct opening parts :: (tokensAll parts ++ [closeToken construct closing])

/-- The tokens of a forest, in pre-order. -/
def tokensAll : List Node → List Token
  | [] => []
  | n :: rest => n.tokens ++ tokensAll rest

end

mutual

@[simp] theorem length_tokens : ∀ n : Node, n.tokens.length = n.size
  | .leaf _ _ => rfl
  | .span _ _ parts _ => by
    rw [tokens, size, List.length_cons, List.length_append, length_tokensAll parts]
    rfl

@[simp] theorem length_tokensAll : ∀ forest : List Node, (tokensAll forest).length = sizeAll forest
  | [] => rfl
  | n :: rest => by
    rw [tokensAll, sizeAll, List.length_append, length_tokens n, length_tokensAll rest]

end

@[simp] theorem signal_openToken (construct : Construct) (opening : Entry) (parts : List Node) :
    (openToken construct opening parts).signal = .opens construct := by
  simp [openToken]

@[simp] theorem signal_closeToken (construct : Construct) (closing : Entry) :
    (closeToken construct closing).signal = .closes construct := rfl

end Node

/-! ## Reading a forest -/

namespace Entry

open Node

mutual

/-- The entries of a node are read as its tokens, whatever is open around it. -/
theorem pair_entries (index : Nat) (opened : List Opened) (done : List Token) (rest : List Entry) :
    ∀ n : Node, pair index opened done (n.entries ++ rest) =
      pair (index + n.size) opened (n.tokens.reverse ++ done) rest
  | .leaf atom e => by
    rw [entries, tokens, List.singleton_append, pair]
    cases atom <;> rfl
  | .span construct opening parts closing => by
    rw [entries, tokens, List.cons_append, pair, List.append_assoc]
    simp only [signal_withSignal]
    rw [pair_entriesAll, List.singleton_append, pair]
    simp only [signal_withSignal, if_pos]
    have hindex : index + 1 + sizeAll parts + 1 = index + (sizeAll parts + 2) := by omega
    simp [size, openToken, closeToken, hindex]

theorem pair_entriesAll (index : Nat) (opened : List Opened) (done : List Token)
    (rest : List Entry) :
    ∀ forest : List Node, pair index opened done (entriesAll forest ++ rest) =
      pair (index + sizeAll forest) opened ((tokensAll forest).reverse ++ done) rest
  | [] => rfl
  | n :: forest => by
    rw [entriesAll, List.append_assoc, pair_entries, pair_entriesAll]
    rw [sizeAll, tokensAll, List.reverse_append, List.append_assoc, Nat.add_assoc]

end

/-- Entries that close what is open: a forest, and for each open construct the entry that closes it and
a forest behind. -/
inductive Closing : List Opened → List Entry → Prop
  | level (forest : List Node) : Closing [] (entriesAll forest)
  | close {o : Opened} {opened : List Opened} {e : Entry} {rest : List Entry} (forest : List Node) :
      e.token.signal = .closes o.construct → Closing opened rest →
      Closing (o :: opened) (entriesAll forest ++ e :: rest)

theorem Closing.node {opened : List Opened} {rest : List Entry} (n : Node)
    (h : Closing opened rest) : Closing opened (n.entries ++ rest) := by
  cases h with
  | level forest => exact .level (n :: forest)
  | close forest hclose h =>
    rw [← List.append_assoc]
    exact .close (n :: forest) hclose h

/-- What is read to the end closes all that is open. -/
theorem closing_of_pair {index : Nat} {opened : List Opened} {done ts : List Token}
    {es : List Entry} (h : pair index opened done es = .ok ts) : Closing opened es := by
  induction es generalizing index opened done with
  | nil =>
    cases opened with
    | nil => exact .level []
    | cons o opened => cases h
  | cons e rest ih =>
    rw [pair.eq_def] at h
    dsimp only at h
    split at h
    · rename_i construct hopens
      -- The rest closes this construct before those around it, so it begins with the parts of it.
      cases ih h with
      | @close _ _ closer _ forest hclose hrest =>
        have := hrest.node (.span construct e forest closer)
        rw [entries, ← hopens, ← hclose] at this
        simpa using this
    · rename_i construct hcloses
      cases opened with
      | nil => cases h
      | cons o opened =>
        dsimp only at h
        split at h
        · rename_i hsame
          exact .close [] (by rw [hcloses, hsame]) (ih h)
        · cases h
    · rename_i hopens hcloses
      have hleaf (atom : Atom) (hs : e.token.signal = atom.signal) : Closing opened (e :: rest) := by
        have := (ih h).node (.leaf atom e)
        rwa [entries, ← hs] at this
      cases hs : e.token.signal with
      | opens construct => exact absurd hs (hopens construct)
      | closes construct => exact absurd hs (hcloses construct)
      | validValue => exact hleaf .validValue hs
      | choice => exact hleaf .choice hs
      | encoding => exact hleaf .encoding hs

/-- **A list of entries is accepted exactly if it is a forest**, and then its tokens are those of the
forest. -/
theorem pair_ok {es : List Entry} {ts : List Token} :
    pair 0 [] [] es = .ok ts ↔ ∃ forest, es = entriesAll forest ∧ ts = tokensAll forest := by
  have hforest (forest : List Node) : pair 0 [] [] (entriesAll forest) = .ok (tokensAll forest) := by
    have := pair_entriesAll 0 [] [] [] forest
    rw [List.append_nil] at this
    rw [this, pair, List.append_nil, List.reverse_reverse]
  constructor
  · intro h
    cases closing_of_pair h with
    | level forest =>
      rw [hforest] at h
      exact ⟨forest, rfl, (Except.ok.inj h).symm⟩
  · rintro ⟨forest, rfl, rfl⟩
    exact hforest forest

/-- A single node is read as its tokens. -/
theorem pair_node (n : Node) : pair 0 [] [] n.entries = .ok n.tokens :=
  pair_ok.mpr ⟨[n], by rw [entriesAll, entriesAll, List.append_nil],
    by rw [tokensAll, tokensAll, List.append_nil]⟩

end Entry

end SimpleBinary
