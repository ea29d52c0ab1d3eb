import Secd.Text.Cluster.Role

/-!
# Clusters of characters

A text is divided into clusters, each of which a reader takes for one character: a letter with its
accents, a syllable, a flag, or several pictographs with joiners between them. Whether a character
joins the cluster before it follows from its role and from how that cluster ends. Nothing of the
text is lost, and no cluster is empty.
-/

namespace Secd.Text

/-- How a text ends, as far as it matters for what comes after it. -/
structure ClusterEnd where
  /-- The role of the last character. -/
  role : ClusterRole
  /-- Whether the text ends with the first half of a flag. -/
  halfFlag : Bool
  /-- Whether the text ends with a pictograph and what extends it, perhaps with a joiner. -/
  pictograph : Bool
  /-- Whether the text ends with a consonant that can be linked, and what extends it. -/
  linkable : Bool
  /-- Whether a link is among what extends that consonant. -/
  linked : Bool
deriving DecidableEq, Repr

namespace ClusterEnd

/-- How the empty text ends: nothing joins it. -/
def empty : ClusterEnd := ⟨.control, false, false, false, false⟩

/-- How a text ends when a character is put after it. -/
def push (e : ClusterEnd) (c : Char) : ClusterEnd :=
  let role := ClusterRole.of c
  let extending := role == .extending || role == .joiner
  let linkable := e.linkable && extending && c != '\u200c'
  { role := role
    halfFlag := role == .flagLetter && !e.halfFlag
    pictograph := role == .pictograph || e.pictograph && e.role != .joiner && extending
    linkable := isLinkable c || linkable
    linked := linkable && (e.linked || isLink c) }

/-- Whether a character put after the text stands in the same cluster as the last one. -/
def joins (e : ClusterEnd) (c : Char) : Bool :=
  match e.role, ClusterRole.of c with
  | .carriageReturn, .lineFeed => true
  | .carriageReturn, _ | .lineFeed, _ | .control, _ => false
  | _, .carriageReturn | _, .lineFeed | _, .control => false
  | _, .extending | _, .joiner | _, .spacing => true
  | .preceding, _ => true
  | .initial, .initial | .initial, .medial | .initial, .openSyllable
  | .initial, .closedSyllable => true
  | .medial, .medial | .medial, .final | .openSyllable, .medial | .openSyllable, .final => true
  | .final, .final | .closedSyllable, .final => true
  | .flagLetter, .flagLetter => e.halfFlag
  | .joiner, .pictograph => e.pictograph
  | _, _ => e.linked && isLinkable c

/-- Nothing joins the empty text. -/
theorem joins_empty (c : Char) : empty.joins c = false := rfl

end ClusterEnd

/-- Divides what follows a text into clusters, given how the text ends and its last cluster, last
character first. -/
def clustersFrom (e : ClusterEnd) (cluster : List Char) : List Char → List (List Char)
  | [] => [cluster.reverse]
  | c :: rest =>
    if e.joins c then clustersFrom (e.push c) (c :: cluster) rest
    else cluster.reverse :: clustersFrom (e.push c) [c] rest

/-- The clusters of a text. -/
def clusters : List Char → List (List Char)
  | [] => []
  | c :: rest => clustersFrom (ClusterEnd.empty.push c) [c] rest

/-- The clusters after a text and its last cluster are what follows the beginning of that
cluster. -/
theorem flatten_clustersFrom (e : ClusterEnd) (cluster text : List Char) :
    (clustersFrom e cluster text).flatten = cluster.reverse ++ text := by
  induction text generalizing e cluster with
  | nil => simp [clustersFrom]
  | cons c rest ih =>
    by_cases joined : e.joins c
    · simp [clustersFrom, joined, ih]
    · simp [clustersFrom, joined, ih]

/-- The clusters of a text are the whole text. -/
theorem flatten_clusters (text : List Char) : (clusters text).flatten = text := by
  cases text with
  | nil => rfl
  | cons c rest => simp [clusters, flatten_clustersFrom]

/-- No cluster after a nonempty one is empty. -/
theorem nil_not_mem_clustersFrom (e : ClusterEnd) {cluster : List Char} (text : List Char)
    (nonempty : cluster ≠ []) : [] ∉ clustersFrom e cluster text := by
  induction text generalizing e cluster with
  | nil => simpa [clustersFrom] using nonempty
  | cons c rest ih =>
    by_cases joined : e.joins c
    · simpa [clustersFrom, joined] using ih (e.push c) (List.cons_ne_nil c cluster)
    · simp only [clustersFrom, joined, Bool.false_eq_true, if_false, List.mem_cons, not_or]
      exact ⟨by simpa using nonempty, ih (e.push c) (List.cons_ne_nil c [])⟩

/-- No cluster is empty. -/
theorem nil_not_mem_clusters (text : List Char) : [] ∉ clusters text := by
  cases text with
  | nil => exact List.not_mem_nil
  | cons c rest => exact nil_not_mem_clustersFrom _ rest (List.cons_ne_nil c [])

end Secd.Text
