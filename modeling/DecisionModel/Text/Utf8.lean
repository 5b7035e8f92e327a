/-!
# Places in text

Places in text are counted in bytes of its UTF-8 form.  A place that is not on the
border of a character belongs to the character it falls into.
-/

namespace DecisionModel.Text

def byteLength : List Char → Nat
  | [] => 0
  | c :: rest => c.utf8Size + byteLength rest

@[simp] theorem byteLength_nil : byteLength [] = 0 := rfl

@[simp] theorem byteLength_cons (c : Char) (rest : List Char) :
    byteLength (c :: rest) = c.utf8Size + byteLength rest := rfl

@[simp] theorem byteLength_append (as bs : List Char) :
    byteLength (as ++ bs) = byteLength as + byteLength bs := by
  induction as with
  | nil => simp
  | cons c rest ih => simp [ih, Nat.add_assoc]

/-- The characters that start in the first `count` bytes. -/
def takeBytes (count : Nat) : List Char → List Char
  | [] => []
  | c :: rest => if count = 0 then [] else c :: takeBytes (count - c.utf8Size) rest

/-- The characters that start after the first `count` bytes. -/
def dropBytes (count : Nat) : List Char → List Char
  | [] => []
  | c :: rest => if count = 0 then c :: rest else dropBytes (count - c.utf8Size) rest

theorem takeBytes_append_dropBytes (count : Nat) (cs : List Char) :
    takeBytes count cs ++ dropBytes count cs = cs := by
  induction cs generalizing count with
  | nil => rfl
  | cons c rest ih =>
    unfold takeBytes dropBytes
    split
    · rfl
    · simp [ih]

end DecisionModel.Text
