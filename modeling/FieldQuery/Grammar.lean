/-!
# Words and signs of the query language

Every fixed spelling that a query text can contain is named here once: operator signs, connective
words, the negation sign, the null word and the separator between words. The names of the fields
that the ready-made searches ask about stand beside them.
-/

namespace FieldQuery.Grammar

def equalsSign : String := ":"
def containsSign : String := "~"
def greaterSign : String := ">"
def lesserSign : String := "<"
def greaterEqualSign : String := ">="
def lesserEqualSign : String := "<="

def andWord : String := "AND"
def orWord : String := "OR"
def separator : String := " "
def negationSign : String := "-"
def nullWord : String := "null"

/-- A metadata key is written in brackets after this word. -/
def metadataWord : String := "metadata"

/-- The fewest characters that a substring search may ask for. -/
def leastSubstring : Nat := 3

def amountField : String := "amount"
def createdField : String := "created"
def currencyField : String := "currency"
def emailField : String := "email"
def nameField : String := "name"
def statusField : String := "status"

end FieldQuery.Grammar
