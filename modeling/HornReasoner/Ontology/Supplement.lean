import HornReasoner.N3.Document

/-! Rules for what no single axiom expresses: how schema statements combine, and the
equalities that functional properties and disjoint classes imply. -/
namespace HornReasoner.Ontology

def supplementText : String := "
@prefix rdf: <http://www.w3.org/1999/02/22-rdf-syntax-ns#> .
@prefix rdfs: <http://www.w3.org/2000/01/rdf-schema#> .
@prefix owl: <http://www.w3.org/2002/07/owl#> .

 # subsumption
\x7b ?a rdfs:subClassOf ?b . ?b rdfs:subClassOf ?c \x7d => \x7b ?a rdfs:subClassOf ?c \x7d .
\x7b ?a owl:equivalentClass ?b \x7d => \x7b ?a rdfs:subClassOf ?b . ?b rdfs:subClassOf ?a \x7d .
\x7b ?a rdfs:subClassOf ?b . ?b rdfs:subClassOf ?a \x7d => \x7b ?a owl:equivalentClass ?b \x7d .
\x7b ?p rdfs:subPropertyOf ?q . ?q rdfs:subPropertyOf ?r \x7d => \x7b ?p rdfs:subPropertyOf ?r \x7d .
\x7b ?p owl:equivalentProperty ?q \x7d => \x7b ?p rdfs:subPropertyOf ?q . ?q rdfs:subPropertyOf ?p \x7d .

 # inverses
\x7b ?p owl:inverseOf ?q \x7d => \x7b ?q owl:inverseOf ?p \x7d .
\x7b ?p owl:inverseOf ?q . ?p a owl:FunctionalProperty \x7d => \x7b ?q a owl:InverseFunctionalProperty \x7d .
\x7b ?p owl:inverseOf ?q . ?p a owl:InverseFunctionalProperty \x7d => \x7b ?q a owl:FunctionalProperty \x7d .
\x7b ?p owl:inverseOf ?q . ?p a owl:SymmetricProperty \x7d => \x7b ?q a owl:SymmetricProperty \x7d .

 # equality
\x7b ?p a owl:FunctionalProperty . ?x ?p ?a . ?x ?p ?b \x7d => \x7b ?a owl:sameAs ?b \x7d .
\x7b ?p a owl:InverseFunctionalProperty . ?a ?p ?y . ?b ?p ?y \x7d => \x7b ?a owl:sameAs ?b \x7d .
\x7b ?a owl:sameAs ?b \x7d => \x7b ?b owl:sameAs ?a \x7d .
\x7b ?a owl:sameAs ?b . ?b owl:sameAs ?c \x7d => \x7b ?a owl:sameAs ?c \x7d .

 # symmetric schema relations
\x7b ?a owl:differentFrom ?b \x7d => \x7b ?b owl:differentFrom ?a \x7d .
\x7b ?a owl:disjointWith ?b \x7d => \x7b ?b owl:disjointWith ?a \x7d .
\x7b ?a owl:complementOf ?b \x7d => \x7b ?b owl:complementOf ?a \x7d .
\x7b ?c owl:disjointWith ?d . ?a a ?c . ?b a ?d \x7d => \x7b ?a owl:differentFrom ?b \x7d .
"

/-- The supplement as rules. -/
def supplement : Except RuleError Ruleset := N3.parse supplementText

end HornReasoner.Ontology
