import TeamClaude.Lib.Exec
import TeamClaude.Lib.Slices
import Mathlib.Data.List.Perm.Basic

/-!
# The minted chain

The listener mints a CA and a leaf under it and keeps them in five files. A start reuses the leaf
when the files are there and the host list is current; nothing in them says who signed the leaf.
A start can be cut short between two of its writes, and files go missing between starts.
-/

namespace TeamClaude

open Lib

/-- What `rcgen` signs and `rustls` accepts. -/
structure Rcgen (Key CaCert LeafCert : Type) where
  selfSigned : Key → CaCert
  signedBy : Key → Key → List (List Char) → LeafCert
  accepts : LeafCert → Key → Bool

def fallbackLeafSans : List (List Char) :=
  ["api.anthropic.com".toList, "platform.claude.com".toList, "chatgpt.com".toList,
    "www.example.org".toList]

/-- The files of `MintedPaths` -/
inductive MintedPath
  | ca
  | caKey
  | leafCert
  | leafKey
  | sans
  deriving DecidableEq

structure MintedFiles (Key CaCert LeafCert : Type) where
  ca : Option CaCert := none
  caKey : Option Key := none
  leafCert : Option LeafCert := none
  leafKey : Option Key := none
  sans : Option (List Char) := none

/-- One `write_file`. -/
inductive FileWrite (Key CaCert LeafCert : Type)
  | ca (cert : CaCert)
  | caKey (key : Key)
  | leafCert (cert : LeafCert)
  | leafKey (key : Key)
  | sans (content : List Char)

/-- `TlsAssets`: the certificate the acceptor presents and the hosts it is taken to cover. The CA is
advertised by its path. -/
structure TlsAssets (LeafCert : Type) where
  leaf : LeafCert
  coveredHosts : List (List Char)
  deriving DecidableEq

/-- What `write_sans_sidecar` writes. -/
def sansSidecar (hosts : List (List Char)) : List Char :=
  hosts.flatMap fun host => host ++ ['\n']

/-- `read_sans_sidecar`; the trim takes what `lines` leaves at an end. -/
def readSansSidecar (data : Option (List Char)) : Option (List (List Char)) :=
  data.map fun text => ((text.splitOn '\n').map trimSpace).filter fun line => !line.isEmpty

/-- `sans_match`; sorted lists are equal when they are rearrangements of each other. -/
def sansMatch (sidecar required : List (List Char)) : Bool :=
  decide (sidecar.length = required.length) &&
    (sidecar.map (List.map Char.toLower)).isPerm (required.map (List.map Char.toLower))

/-- The keys one start generates, where it generates them. -/
structure GeneratedKeys (Key : Type) where
  remintedLeaf : Key
  ca : Key
  leaf : Key

variable {Key CaCert LeafCert : Type}

namespace MintedFiles

def write (files : MintedFiles Key CaCert LeafCert) :
    FileWrite Key CaCert LeafCert → MintedFiles Key CaCert LeafCert
  | .ca cert => { files with ca := some cert }
  | .caKey key => { files with caKey := some key }
  | .leafCert cert => { files with leafCert := some cert }
  | .leafKey key => { files with leafKey := some key }
  | .sans content => { files with sans := some content }

def delete (files : MintedFiles Key CaCert LeafCert) :
    MintedPath → MintedFiles Key CaCert LeafCert
  | .ca => { files with ca := none }
  | .caKey => { files with caKey := none }
  | .leafCert => { files with leafCert := none }
  | .leafKey => { files with leafKey := none }
  | .sans => { files with sans := none }

def allPresent (files : MintedFiles Key CaCert LeafCert) : Bool :=
  files.ca.isSome && files.leafCert.isSome && files.leafKey.isSome

/-- The recorded hosts are the required ones. -/
def fresh (files : MintedFiles Key CaCert LeafCert) : Bool :=
  (readSansSidecar files.sans).any fun sans => sansMatch sans fallbackLeafSans

/-- `build_acceptor`: the certificate presented, when both files are there and go together. -/
def buildAcceptor (rc : Rcgen Key CaCert LeafCert) (files : MintedFiles Key CaCert LeafCert) :
    Option LeafCert :=
  match files.leafCert, files.leafKey with
  | some cert, some key => if rc.accepts cert key then some cert else none
  | _, _ => none

def assets (rc : Rcgen Key CaCert LeafCert) (files : MintedFiles Key CaCert LeafCert) :
    Option (TlsAssets LeafCert) :=
  (files.buildAcceptor rc).map fun leaf => { leaf, coveredHosts := fallbackLeafSans }

/-- The writes of `remint_leaf_under_persisted_ca`. -/
def remintWrites (rc : Rcgen Key CaCert LeafCert) (files : MintedFiles Key CaCert LeafCert)
    (keys : GeneratedKeys Key) : Option (List (FileWrite Key CaCert LeafCert)) :=
  match files.ca, files.caKey with
  | some _, some caKey =>
    some
      [.leafCert (rc.signedBy caKey keys.remintedLeaf fallbackLeafSans),
        .leafKey keys.remintedLeaf, .sans (sansSidecar fallbackLeafSans)]
  | _, _ => none

/-- The writes of `generate_and_persist`. -/
def generateWrites (rc : Rcgen Key CaCert LeafCert) (keys : GeneratedKeys Key) :
    List (FileWrite Key CaCert LeafCert) :=
  [.ca (rc.selfSigned keys.ca), .caKey keys.ca,
    .leafCert (rc.signedBy keys.ca keys.leaf fallbackLeafSans), .leafKey keys.leaf,
    .sans (sansSidecar fallbackLeafSans)]

/-- The leaf is reused: its hosts are current and its key is the one on file. -/
def reusable (rc : Rcgen Key CaCert LeafCert) (files : MintedFiles Key CaCert LeafCert) : Bool :=
  files.fresh && (files.buildAcceptor rc).isSome

/-- The writes of `load_tls_in_with`, in order. A re-minted leaf that no acceptor is built over is
followed by a fresh chain. -/
def loadWrites (rc : Rcgen Key CaCert LeafCert) (files : MintedFiles Key CaCert LeafCert)
    (keys : GeneratedKeys Key) : List (FileWrite Key CaCert LeafCert) :=
  if files.allPresent then
    if files.reusable rc then []
    else
      match files.remintWrites rc keys with
      | some writes =>
        if ((exec write files writes).buildAcceptor rc).isSome then writes
        else writes ++ generateWrites rc keys
      | none => generateWrites rc keys
  else generateWrites rc keys

/-- The files after a start, or what a start that is stopped after some of its writes leaves. -/
def load (rc : Rcgen Key CaCert LeafCert) (files : MintedFiles Key CaCert LeafCert)
    (keys : GeneratedKeys Key) (stop : Option Nat) : MintedFiles Key CaCert LeafCert :=
  match stop with
  | some n => exec write files ((files.loadWrites rc keys).take n)
  | none => exec write files (files.loadWrites rc keys)

end MintedFiles

/-- A start, maybe stopped after some of its writes, or the loss of a file. -/
inductive MintAct (Key : Type)
  | start (keys : GeneratedKeys Key) (stop : Option Nat)
  | delete (path : MintedPath)

namespace MintedFiles

def step (rc : Rcgen Key CaCert LeafCert) (files : MintedFiles Key CaCert LeafCert) :
    MintAct Key → MintedFiles Key CaCert LeafCert
  | .start keys stop => files.load rc keys stop
  | .delete path => files.delete path

def served (rc : Rcgen Key CaCert LeafCert) (files : MintedFiles Key CaCert LeafCert) :
    MintAct Key → Option (TlsAssets LeafCert)
  | .start keys none => (files.load rc keys none).assets rc
  | _ => none

/-! ## What a start promises -/

/-- The leaf was signed under the key whose certificate is advertised, for the hosts it is taken to
cover. -/
def Chains (rc : Rcgen Key CaCert LeafCert) (files : MintedFiles Key CaCert LeafCert)
    (assets : TlsAssets LeafCert) : Prop :=
  ∃ caKey leafKey hosts, assets.leaf = rc.signedBy caKey leafKey hosts ∧
    files.ca = some (rc.selfSigned caKey) ∧ ∀ host ∈ assets.coveredHosts, host ∈ hosts

/-- Whatever the start serves chains to the CA on file after it. -/
def ServesChain (rc : Rcgen Key CaCert LeafCert) (files : MintedFiles Key CaCert LeafCert)
    (act : MintAct Key) : Prop :=
  ∀ assets, files.served rc act = some assets → Chains rc (files.step rc act) assets

/-- A start that finds the CA certificate gone and a whole leaf beside it is not stopped right after
the new certificate while the old CA key is there, nor before the new leaf while the old one can be
reused. -/
def NotCutShort (rc : Rcgen Key CaCert LeafCert) (files : MintedFiles Key CaCert LeafCert) :
    MintAct Key → Prop
  | .start _ (some n) =>
    files.ca = none → files.leafCert.isSome = true → files.leafKey.isSome = true →
      (n = 1 → files.caKey = none) ∧ (n = 1 ∨ n = 2 → files.reusable rc = false)
  | _ => True

variable {rc : Rcgen Key CaCert LeafCert} {files start : MintedFiles Key CaCert LeafCert}
  {act : MintAct Key} {keys : GeneratedKeys Key} {acts : List (MintAct Key)}

/-- The leaf is one for the required hosts, under the CA. -/
def Signed (rc : Rcgen Key CaCert LeafCert) (ca : CaCert) (leaf : LeafCert) : Prop :=
  ∃ caKey leafKey, leaf = rc.signedBy caKey leafKey fallbackLeafSans ∧ ca = rc.selfSigned caKey

/-- Beside a whole leaf the CA certificate is that of the CA key, and the one over a leaf that can be
reused. -/
def Sound (rc : Rcgen Key CaCert LeafCert) (files : MintedFiles Key CaCert LeafCert) : Prop :=
  ∀ ca leaf, files.ca = some ca → files.leafCert = some leaf → files.leafKey.isSome = true →
    (files.reusable rc = true → Signed rc ca leaf) ∧
      ∀ caKey, files.caKey = some caKey → ca = rc.selfSigned caKey

theorem sound_new : Sound rc (({} : MintedFiles Key CaCert LeafCert)) := by
  intro ca leaf hca
  cases hca

theorem Sound.delete (h : Sound rc files) (path : MintedPath) : Sound rc (files.delete path) := by
  intro ca leaf hca hleaf hkey
  cases path with
  | ca => cases hca
  | leafCert => cases hleaf
  | leafKey => cases hkey
  | caKey => exact ⟨(h ca leaf hca hleaf hkey).1, fun caKey hnone => nomatch hnone⟩
  | sans =>
    refine ⟨fun hreuse => ?_, (h ca leaf hca hleaf hkey).2⟩
    simp [reusable, fresh, readSansSidecar, MintedFiles.delete] at hreuse

/-! ## One start -/

/-- A whole leaf that is not reused and has its CA key beside it is minted again, by three writes. -/
theorem load_writes_remint (haccepts : ∀ caKey leafKey hosts,
      rc.accepts (rc.signedBy caKey leafKey hosts) leafKey = true)
    (hpresent : files.allPresent = true) (hreuse : files.reusable rc = false) {caKey : Key}
    (hkey : files.caKey = some caKey) :
    files.loadWrites rc keys =
      [.leafCert (rc.signedBy caKey keys.remintedLeaf fallbackLeafSans),
        .leafKey keys.remintedLeaf, .sans (sansSidecar fallbackLeafSans)] := by
  obtain ⟨ca, hca⟩ : ∃ ca, files.ca = some ca := by
    simp only [allPresent, Bool.and_eq_true] at hpresent
    exact Option.isSome_iff_exists.mp hpresent.1.1
  rw [loadWrites, if_pos hpresent, hreuse, if_neg Bool.false_ne_true]
  simp only [remintWrites, hca, hkey]
  refine if_pos ?_
  simp [write, buildAcceptor, haccepts]

theorem load_writes_reuse (hpresent : files.allPresent = true) (hreuse : files.reusable rc = true) :
    files.loadWrites rc keys = [] := by
  rw [loadWrites, if_pos hpresent, if_pos hreuse]

/-- Without a whole leaf, or without the CA key for one that is not reused, a chain is minted. -/
theorem load_writes_generate
    (h : files.allPresent = true → files.reusable rc = false ∧ files.caKey = none) :
    files.loadWrites rc keys = generateWrites rc keys := by
  rw [loadWrites]
  split
  · rename_i hpresent
    obtain ⟨hreuse, hkey⟩ := h hpresent
    rw [hreuse, if_neg Bool.false_ne_true]
    have hnone : files.remintWrites rc keys = none := by
      rw [remintWrites, hkey]
      cases files.ca <;> rfl
    rw [hnone]
  · rfl

/-- A leaf for the required hosts under the key of the CA and of the CA key file. -/
structure Minted (rc : Rcgen Key CaCert LeafCert) (caKey : Key)
    (files : MintedFiles Key CaCert LeafCert) : Prop where
  ca : files.ca = some (rc.selfSigned caKey)
  key : files.caKey = some caKey
  leaf : ∃ leafKey, files.leafCert = some (rc.signedBy caKey leafKey fallbackLeafSans)

theorem Minted.sound {caKey : Key} (h : Minted rc caKey files) : Sound rc files := by
  intro ca leaf hca hleaf _
  obtain ⟨leafKey, hsigned⟩ := h.leaf
  rw [h.ca, Option.some.injEq] at hca
  rw [hsigned, Option.some.injEq] at hleaf
  refine ⟨fun _ => ⟨caKey, leafKey, hleaf.symm, hca.symm⟩, fun other hother => ?_⟩
  rw [h.key, Option.some.injEq] at hother
  rw [← hca, hother]

/-- The writes of a re-mint, cut short anywhere. -/
theorem remint_cut {caKey : Key} (hca : files.ca = some (rc.selfSigned caKey))
    (hkey : files.caKey = some caKey) {n : Nat} (hn : n ≠ 0) :
    Minted rc caKey (exec write files
      (([.leafCert (rc.signedBy caKey keys.remintedLeaf fallbackLeafSans),
        .leafKey keys.remintedLeaf, .sans (sansSidecar fallbackLeafSans)] :
          List (FileWrite Key CaCert LeafCert)).take n)) := by
  rcases n with - | - | - | n
  · exact absurd rfl hn
  · exact ⟨hca, hkey, keys.remintedLeaf, rfl⟩
  · exact ⟨hca, hkey, keys.remintedLeaf, rfl⟩
  · rw [List.take_of_length_le (Nat.le_add_left 3 n)]
    exact ⟨hca, hkey, keys.remintedLeaf, rfl⟩

/-- The writes of a new chain, cut short after its leaf certificate. -/
theorem generate_cut (files : MintedFiles Key CaCert LeafCert) {n : Nat} (hn : 3 ≤ n) :
    Minted rc keys.ca (exec write files ((generateWrites rc keys).take n)) := by
  rcases n with - | - | - | - | - | n
  · omega
  · omega
  · omega
  · exact ⟨rfl, rfl, keys.leaf, rfl⟩
  · exact ⟨rfl, rfl, keys.leaf, rfl⟩
  · rw [List.take_of_length_le (Nat.le_add_left 5 n)]
    exact ⟨rfl, rfl, keys.leaf, rfl⟩

/-- The writes of a new chain, cut short before its leaf certificate. -/
theorem generate_cut_short {n : Nat} (hn : n < 3) (h : Sound rc files)
    (hpresent : files.allPresent = true → files.reusable rc = false ∧ files.caKey = none)
    (hwhole : NotCutShort rc files (.start keys (some n))) :
    Sound rc (exec write files ((generateWrites rc keys).take n)) := by
  -- what the first two writes leave of the old leaf
  have hold : n = 1 ∨ n = 2 → files.leafCert.isSome = true → files.leafKey.isSome = true →
      (n = 1 → files.caKey = none) ∧ files.reusable rc = false := by
    intro hcut hleaf hkey
    cases hca : files.ca with
    | none =>
      obtain ⟨hcakey, hreuse⟩ := hwhole hca hleaf hkey
      exact ⟨hcakey, hreuse hcut⟩
    | some ca =>
      have hall : files.allPresent = true := by simp [allPresent, hca, hleaf, hkey]
      exact ⟨fun _ => (hpresent hall).2, (hpresent hall).1⟩
  rcases n with - | - | - | n
  · exact h
  · intro ca leaf _ hleaf hkey
    have hleaf' : files.leafCert.isSome = true := Option.isSome_iff_exists.mpr ⟨leaf, hleaf⟩
    obtain ⟨hcakey, hreuse⟩ := hold (.inl rfl) hleaf' hkey
    refine ⟨fun hreused => absurd hreused ?_, fun caKey hsome => absurd hsome ?_⟩
    · exact Bool.not_eq_true _ |>.mpr hreuse
    · exact ne_of_eq_of_ne (hcakey rfl) (Option.some_ne_none caKey).symm
  · intro ca leaf hca hleaf hkey
    have hleaf' : files.leafCert.isSome = true := Option.isSome_iff_exists.mpr ⟨leaf, hleaf⟩
    obtain ⟨-, hreuse⟩ := hold (.inr rfl) hleaf' hkey
    refine ⟨fun hreused => absurd hreused ?_, fun caKey hsome => ?_⟩
    · exact Bool.not_eq_true _ |>.mpr hreuse
    · obtain rfl : keys.ca = caKey := Option.some.inj hsome
      exact (Option.some.inj hca).symm
  · omega

/-- The branch a start takes. -/
theorem load_cases (haccepts : ∀ caKey leafKey hosts,
      rc.accepts (rc.signedBy caKey leafKey hosts) leafKey = true)
    (files : MintedFiles Key CaCert LeafCert) (keys : GeneratedKeys Key) :
    (files.allPresent = true ∧ files.reusable rc = true ∧ files.loadWrites rc keys = []) ∨
    (∃ caKey, files.allPresent = true ∧ files.caKey = some caKey ∧
      files.loadWrites rc keys =
        [.leafCert (rc.signedBy caKey keys.remintedLeaf fallbackLeafSans),
          .leafKey keys.remintedLeaf, .sans (sansSidecar fallbackLeafSans)]) ∨
    ((files.allPresent = true → files.reusable rc = false ∧ files.caKey = none) ∧
      files.loadWrites rc keys = generateWrites rc keys) := by
  by_cases hpresent : files.allPresent = true
  · cases hreuse : files.reusable rc with
    | true => exact .inl ⟨hpresent, rfl, load_writes_reuse hpresent hreuse⟩
    | false =>
      cases hkey : files.caKey with
      | some caKey =>
        exact .inr (.inl ⟨caKey, hpresent, rfl, load_writes_remint haccepts hpresent hreuse hkey⟩)
      | none =>
        exact .inr (.inr ⟨fun _ => ⟨rfl, rfl⟩, load_writes_generate fun _ => ⟨hreuse, hkey⟩⟩)
  · exact .inr (.inr ⟨fun h => absurd h hpresent, load_writes_generate fun h => absurd h hpresent⟩)

/-- The CA certificate of a sound whole leaf is that of the CA key beside it. -/
theorem Sound.ca_key (h : Sound rc files) (hpresent : files.allPresent = true) {caKey : Key}
    (hkey : files.caKey = some caKey) : files.ca = some (rc.selfSigned caKey) := by
  simp only [allPresent, Bool.and_eq_true] at hpresent
  obtain ⟨⟨hca, hleaf⟩, hleafkey⟩ := hpresent
  obtain ⟨ca, hca⟩ := Option.isSome_iff_exists.mp hca
  obtain ⟨leaf, hleaf⟩ := Option.isSome_iff_exists.mp hleaf
  rw [hca, (h ca leaf hca hleaf hleafkey).2 caKey hkey]

/-- A start that is not cut short leaves the files sound, and one that runs through leaves a leaf
under the CA on file. -/
theorem sound_load (haccepts : ∀ caKey leafKey hosts,
      rc.accepts (rc.signedBy caKey leafKey hosts) leafKey = true)
    (h : Sound rc files) {stop : Option Nat} (hwhole : NotCutShort rc files (.start keys stop)) :
    Sound rc (files.load rc keys stop) := by
  obtain ⟨-, -, hwrites⟩ | ⟨caKey, hpresent, hkey, hwrites⟩ | ⟨hpresent, hwrites⟩ :=
    load_cases haccepts files keys
  · cases stop with
    | none =>
      rw [load, hwrites]
      exact h
    | some n =>
      rw [load, hwrites, List.take_nil]
      exact h
  · have hca := h.ca_key hpresent hkey
    cases stop with
    | none =>
      rw [load, hwrites]
      exact (remint_cut hca hkey (n := 3) (by decide)).sound
    | some n =>
      rw [load, hwrites]
      by_cases hn : n = 0
      · subst hn
        exact h
      · exact (remint_cut hca hkey hn).sound
  · cases stop with
    | none =>
      rw [load, hwrites]
      exact (generate_cut files (n := 5) (by decide)).sound
    | some n =>
      rw [load, hwrites]
      by_cases hn : 3 ≤ n
      · exact (generate_cut files hn).sound
      · exact generate_cut_short (by omega) h hpresent hwhole

theorem Sound.step (haccepts : ∀ caKey leafKey hosts,
      rc.accepts (rc.signedBy caKey leafKey hosts) leafKey = true)
    (h : Sound rc files) (hwhole : NotCutShort rc files act) : Sound rc (files.step rc act) := by
  cases act with
  | start keys stop => exact sound_load haccepts h hwhole
  | delete path => exact h.delete path

theorem Sound.serves (haccepts : ∀ caKey leafKey hosts,
      rc.accepts (rc.signedBy caKey leafKey hosts) leafKey = true)
    (h : Sound rc files) : ServesChain rc files act := by
  intro assets hserved
  cases act with
  | delete path => cases hserved
  | start keys stop =>
    cases stop with
    | some n => cases hserved
    | none =>
      obtain ⟨leaf, hbuilt, rfl⟩ := Option.map_eq_some_iff.mp hserved
      have hfile : (files.load rc keys none).leafCert = some leaf := by
        unfold buildAcceptor at hbuilt
        split at hbuilt
        · rename_i cert key hcert hkey
          split at hbuilt
          · rwa [← Option.some.inj hbuilt]
          · cases hbuilt
        · cases hbuilt
      obtain ⟨hpresent, hreuse, hwrites⟩ | ⟨caKey, hpresent, hkey, hwrites⟩ | ⟨-, hwrites⟩ :=
        load_cases haccepts files keys
      · have hsame : files.load rc keys none = files := by
          rw [load, hwrites]
          rfl
        rw [hsame] at hfile
        simp only [allPresent, Bool.and_eq_true] at hpresent
        obtain ⟨ca, hca⟩ := Option.isSome_iff_exists.mp hpresent.1.1
        obtain ⟨caKey, leafKey, hleaf, rfl⟩ := (h ca leaf hca hfile hpresent.2).1 hreuse
        refine ⟨caKey, leafKey, fallbackLeafSans, hleaf, ?_, fun host hhost => hhost⟩
        rw [MintedFiles.step, hsame, hca]
      · have hminted : Minted rc caKey (files.load rc keys none) := by
          rw [load, hwrites]
          exact remint_cut (h.ca_key hpresent hkey) hkey (n := 3) (by decide)
        obtain ⟨leafKey, hleaf⟩ := hminted.leaf
        rw [hfile, Option.some.injEq] at hleaf
        exact ⟨caKey, leafKey, fallbackLeafSans, hleaf, hminted.ca, fun host hhost => hhost⟩
      · have hminted : Minted rc keys.ca (files.load rc keys none) := by
          rw [load, hwrites]
          exact generate_cut files (n := 5) (by decide)
        obtain ⟨leafKey, hleaf⟩ := hminted.leaf
        rw [hfile, Option.some.injEq] at hleaf
        exact ⟨keys.ca, leafKey, fallbackLeafSans, hleaf, hminted.ca, fun host hhost => hhost⟩

/-! ## Runs -/

/-- In every run from an empty dir whose starts are not cut short over an old leaf, the leaf served
chains to the CA that is advertised. -/
theorem leaf_chains (haccepts : ∀ caKey leafKey hosts,
      rc.accepts (rc.signedBy caKey leafKey hosts) leafKey = true)
    (hwhole : EachStep (step rc) (NotCutShort rc) {} acts) :
    EachStep (step rc) (ServesChain rc) {} acts := by
  have hkeep : ∀ files act, Sound rc files → NotCutShort rc files act → Sound rc (step rc files act) :=
    fun files act h => h.step haccepts
  exact each_step_of_invariant hkeep (fun files act h _ => h.serves haccepts) sound_new hwhole

/-- Certificates that say who signed what. -/
def symbolic : Rcgen Nat Nat (Nat × Nat × List (List Char)) where
  selfSigned := id
  signedBy caKey leafKey hosts := (caKey, leafKey, hosts)
  accepts cert key := cert.2.1 == key

/-- A chain is minted, loses its recorded hosts and is minted again, in two goes. -/
def mended : List (MintAct Nat) :=
  [.start ⟨0, 1, 2⟩ none, .delete .sans, .start ⟨3, 4, 5⟩ (some 1), .start ⟨6, 7, 8⟩ none]

theorem leaf_chains_mended : EachStep (step symbolic) (ServesChain symbolic) {} mended := by
  apply leaf_chains
  · intro caKey leafKey hosts
    exact beq_self_eq_true leafKey
  · simp only [mended, each_step_cons]
    refine ⟨trivial, trivial, fun hgone => ?_, trivial, each_step_nil⟩
    cases hgone

/-- A chain loses its CA certificate, and the next start stops right after the new one. -/
def cutShort : List (MintAct Nat) :=
  [.start ⟨0, 1, 2⟩ none, .delete .ca, .start ⟨3, 4, 5⟩ (some 1), .start ⟨6, 7, 8⟩ none]

/-- The start after that reuses the leaf under the CA that is gone. -/
theorem cut_short_unchained :
    (∀ caKey leafKey hosts other,
      symbolic.accepts (symbolic.signedBy caKey leafKey hosts) other = true ↔ leafKey = other) ∧
      ¬ EachStep (step symbolic) (ServesChain symbolic) {} cutShort := by
  refine ⟨fun caKey leafKey hosts other => beq_iff_eq, fun h => ?_⟩
  set before := [MintAct.start ⟨0, 1, 2⟩ none, .delete .ca, .start ⟨3, 4, 5⟩ (some 1)] with hbefore
  have hlast := h before (.start ⟨6, 7, 8⟩ none) List.prefix_rfl
  have hserved : served symbolic (exec (step symbolic) {} before) (.start ⟨6, 7, 8⟩ none) =
      some ⟨(1, 2, fallbackLeafSans), fallbackLeafSans⟩ := by decide +kernel
  have hfile : (step symbolic (exec (step symbolic) {} before) (.start ⟨6, 7, 8⟩ none)).ca =
      some 4 := by decide +kernel
  obtain ⟨caKey, leafKey, hosts, hleaf, hca, -⟩ := hlast _ hserved
  have hold : 1 = caKey := congrArg Prod.fst hleaf
  have hnew : 4 = caKey := Option.some.inj (hfile.symm.trans hca)
  omega

end MintedFiles

end TeamClaude
