import HornReasoner.Rdf.Term

/-! The IRIs the reasoner knows: RDF, RDF Schema, OWL, the XML Schema datatypes and
the namespaces of the built-in predicates. -/
namespace HornReasoner.Vocabulary

namespace Rdf

def ns : String := "http://www.w3.org/1999/02/22-rdf-syntax-ns#"
def type : String := "http://www.w3.org/1999/02/22-rdf-syntax-ns#type"
def first : String := "http://www.w3.org/1999/02/22-rdf-syntax-ns#first"
def rest : String := "http://www.w3.org/1999/02/22-rdf-syntax-ns#rest"
def nil : String := "http://www.w3.org/1999/02/22-rdf-syntax-ns#nil"
def property : String := "http://www.w3.org/1999/02/22-rdf-syntax-ns#Property"

def all : List String := [ns, type, first, rest, nil, property]

end Rdf

namespace Rdfs

def ns : String := "http://www.w3.org/2000/01/rdf-schema#"
def subClassOf : String := "http://www.w3.org/2000/01/rdf-schema#subClassOf"
def subPropertyOf : String := "http://www.w3.org/2000/01/rdf-schema#subPropertyOf"
def domain : String := "http://www.w3.org/2000/01/rdf-schema#domain"
def range : String := "http://www.w3.org/2000/01/rdf-schema#range"
def classes : String := "http://www.w3.org/2000/01/rdf-schema#Class"

def all : List String := [ns, subClassOf, subPropertyOf, domain, range, classes]

end Rdfs

namespace Owl

def ns : String := "http://www.w3.org/2002/07/owl#"
def classes : String := "http://www.w3.org/2002/07/owl#Class"
def thing : String := "http://www.w3.org/2002/07/owl#Thing"
def nothing : String := "http://www.w3.org/2002/07/owl#Nothing"
def restriction : String := "http://www.w3.org/2002/07/owl#Restriction"
def onProperty : String := "http://www.w3.org/2002/07/owl#onProperty"
def someValuesFrom : String := "http://www.w3.org/2002/07/owl#someValuesFrom"
def allValuesFrom : String := "http://www.w3.org/2002/07/owl#allValuesFrom"
def hasValue : String := "http://www.w3.org/2002/07/owl#hasValue"
def minCardinality : String := "http://www.w3.org/2002/07/owl#minCardinality"
def maxCardinality : String := "http://www.w3.org/2002/07/owl#maxCardinality"
def cardinality : String := "http://www.w3.org/2002/07/owl#cardinality"
def intersectionOf : String := "http://www.w3.org/2002/07/owl#intersectionOf"
def unionOf : String := "http://www.w3.org/2002/07/owl#unionOf"
def complementOf : String := "http://www.w3.org/2002/07/owl#complementOf"
def oneOf : String := "http://www.w3.org/2002/07/owl#oneOf"
def equivalentClass : String := "http://www.w3.org/2002/07/owl#equivalentClass"
def equivalentProperty : String := "http://www.w3.org/2002/07/owl#equivalentProperty"
def disjointWith : String := "http://www.w3.org/2002/07/owl#disjointWith"
def inverseOf : String := "http://www.w3.org/2002/07/owl#inverseOf"
def transitiveProperty : String := "http://www.w3.org/2002/07/owl#TransitiveProperty"
def symmetricProperty : String := "http://www.w3.org/2002/07/owl#SymmetricProperty"
def functionalProperty : String := "http://www.w3.org/2002/07/owl#FunctionalProperty"
def inverseFunctionalProperty : String := "http://www.w3.org/2002/07/owl#InverseFunctionalProperty"
def sameAs : String := "http://www.w3.org/2002/07/owl#sameAs"
def differentFrom : String := "http://www.w3.org/2002/07/owl#differentFrom"

def all : List String :=
  [ns, classes, thing, nothing, restriction, onProperty, someValuesFrom, allValuesFrom, hasValue,
   minCardinality, maxCardinality, cardinality, intersectionOf, unionOf, complementOf, oneOf,
   equivalentClass, equivalentProperty, disjointWith, inverseOf, transitiveProperty,
   symmetricProperty, functionalProperty, inverseFunctionalProperty, sameAs, differentFrom]

end Owl

namespace Xsd

def ns : String := "http://www.w3.org/2001/XMLSchema#"
def string : String := "http://www.w3.org/2001/XMLSchema#string"
def boolean : String := "http://www.w3.org/2001/XMLSchema#boolean"
def integer : String := "http://www.w3.org/2001/XMLSchema#integer"
def decimal : String := "http://www.w3.org/2001/XMLSchema#decimal"
def double : String := "http://www.w3.org/2001/XMLSchema#double"
def float : String := "http://www.w3.org/2001/XMLSchema#float"

def all : List String := [ns, string, boolean, integer, decimal, double, float]

/-- The datatypes whose values are numbers. -/
def numeric : List String :=
  [integer, decimal, double, float,
   "http://www.w3.org/2001/XMLSchema#int",
   "http://www.w3.org/2001/XMLSchema#long",
   "http://www.w3.org/2001/XMLSchema#short",
   "http://www.w3.org/2001/XMLSchema#byte",
   "http://www.w3.org/2001/XMLSchema#nonNegativeInteger",
   "http://www.w3.org/2001/XMLSchema#positiveInteger",
   "http://www.w3.org/2001/XMLSchema#negativeInteger",
   "http://www.w3.org/2001/XMLSchema#nonPositiveInteger",
   "http://www.w3.org/2001/XMLSchema#unsignedInt",
   "http://www.w3.org/2001/XMLSchema#unsignedLong"]

def isNumeric (datatype : String) : Bool := numeric.contains datatype

end Xsd

/-! The namespaces of the built-in predicates. -/
namespace Swap

def math : String := "http://www.w3.org/2000/10/swap/math#"
def string : String := "http://www.w3.org/2000/10/swap/string#"
def log : String := "http://www.w3.org/2000/10/swap/log#"
def logImplies : String := "http://www.w3.org/2000/10/swap/log#implies"

def all : List String := [math, string, log, logImplies]

end Swap

/-- Well-known namespaces under their customary names, in the order in which they are
tried. -/
def wellKnown : List (String × String) :=
  [("rdf", Rdf.ns), ("rdfs", Rdfs.ns), ("owl", Owl.ns), ("xsd", Xsd.ns), ("math", Swap.math),
   ("str", Swap.string), ("string", Swap.string), ("log", Swap.log)]

/-- What is left of `s` behind `start`. -/
def dropStart? : List Char → List Char → Option (List Char)
  | [], s => some s
  | _ :: _, [] => none
  | c :: start, d :: s => if c = d then dropStart? start s else none

/-- The first well-known namespace that starts the IRI shortens it; any other IRI
stands in angle brackets. -/
def compact (iri : String) : String :=
  let shortened := wellKnown.findSome? fun e =>
    (dropStart? e.2.toList iri.toList).map fun rest => e.1 ++ ":" ++ String.ofList rest
  shortened.getD ("<" ++ iri ++ ">")

end Vocabulary

/-- A term as labels and diagnostics name it: IRIs shortened, the rest as written. -/
def Term.describe : Term → String
  | iri s => Vocabulary.compact s
  | t => t.render

end HornReasoner
