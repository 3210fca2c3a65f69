/-!
# Elements

An XML element has a name, attributes in order, child elements and text.  The
archive and its documents are built from elements and read off elements;
nothing else in this library looks at XML text.

An attribute may occur twice in an element that was put together by hand.
`attribute?` and `setAttribute` look at the first one of that name.
-/

namespace SettingsArchive.Xml

/-- An element with ordered attributes, child elements and text. -/
structure Element where
  name : String
  attributes : List (String × String) := []
  children : List Element := []
  text : String := ""

namespace Element

instance : Inhabited Element := ⟨⟨"", [], [], ""⟩⟩

/-! ## Equality -/

mutual

/-- Decides whether two elements are the same. -/
def decEq : (a b : Element) → Decidable (a = b)
  | ⟨n, as, cs, t⟩, ⟨m, bs, ds, u⟩ =>
    match decEqList cs ds with
    | isTrue hc =>
      if h : n = m ∧ as = bs ∧ t = u then
        isTrue (by rw [hc, h.1, h.2.1, h.2.2])
      else
        isFalse (by
          intro he
          injection he with h1 h2 _ h4
          exact h ⟨h1, h2, h4⟩)
    | isFalse hc =>
      isFalse (by
        intro he
        injection he with _ _ h3 _
        exact hc h3)

/-- Decides whether two lists of elements are the same. -/
def decEqList : (as bs : List Element) → Decidable (as = bs)
  | [], [] => isTrue rfl
  | [], _ :: _ => isFalse (by simp)
  | _ :: _, [] => isFalse (by simp)
  | a :: as, b :: bs =>
    match decEq a b, decEqList as bs with
    | isTrue h, isTrue hs => isTrue (by rw [h, hs])
    | isFalse h, _ => isFalse (by simp [h])
    | _, isFalse hs => isFalse (by simp [hs])

end

instance : DecidableEq Element := decEq

/-! ## Attributes and children -/

/-- The value of the first attribute of this name. -/
def attribute? (e : Element) (key : String) : Option String :=
  (e.attributes.find? (·.1 == key)).map Prod.snd

/-- Gives the first pair of this key the value, or adds a pair at the end. -/
def setPair (key value : String) :
    List (String × String) → List (String × String)
  | [] => [(key, value)]
  | (k, v) :: pairs =>
    if k = key then (k, value) :: pairs else (k, v) :: setPair key value pairs

/-- The element with this value for the attribute. -/
def setAttribute (e : Element) (key value : String) : Element :=
  { e with attributes := setPair key value e.attributes }

/-- The element with one more child at the end. -/
def push (e child : Element) : Element :=
  { e with children := e.children ++ [child] }

/-- The children of this name. -/
def childrenNamed (e : Element) (name : String) : List Element :=
  e.children.filter (·.name == name)

end Element

end SettingsArchive.Xml
