import Mathlib.Data.List.DropRight
import Isopace.Iso8583.SetBack
import Isopace.Link.Framer
import Isopace.Render.Xmlio

/-!
# Framing of XML documents

Model of the `ISOXML` framer (link/xmlframe.go): `ReadFrame` keeps the depth of the `isomsg`
elements by the text of the tags. Result: `frames_delimited`.
-/

namespace Isopace.Link

open Lib Iso8583 FieldCodec Render Render.Xmlio List

/-! ## The framer -/

/-- `WriteFrame`, line 38. -/
def writeFrame (w msg : Bytes) : Except FrameErr Bytes :=
  if msg.length > defaultMaxFrame then .error .tooLarge else .ok (w ++ (msg ++ [0x0A]))

/-- `isSpace`, line 143. -/
def isSpace (b : UInt8) : Bool := b == 0x20 || b == 0x09 || b == 0x0A || b == 0x0D

/-- `readName`, line 135. -/
def readName (tag : Bytes) : Bytes := tag.takeWhile fun b => !isSpace b && b != 0x2F

def isomsg : Bytes := [0x69, 0x73, 0x6F, 0x6D, 0x73, 0x67]

structure TagClass where
  isOpen : Bool
  isClose : Bool
  selfClose : Bool
  deriving DecidableEq, Repr

/-- `classifyTag`, line 114. -/
def classifyTag (tag : Bytes) : TagClass :=
  let tag := tag.rdropWhile isSpace
  let inner := tag.dropWhile isSpace
  if inner.head? = some 0x2F then ⟨false, readName inner.tail == isomsg, false⟩
  else
    let selfClose := tag.getLast? == some 0x2F
    if readName inner = isomsg then ⟨true, false, selfClose⟩ else ⟨false, false, selfClose⟩

structure Scanner where
  buf : Bytes
  tag : Bytes
  inTag : Bool
  depth : ℤ
  begun : Bool

def Scanner.endTag (s : Scanner) : Scanner :=
  let c := classifyTag s.tag
  let depth := if c.isOpen && !c.selfClose then s.depth + 1 else s.depth
  { s with
    inTag := false
    begun := s.begun || c.isOpen
    depth := if c.isClose then depth - 1 else depth }

/-- The octet in the buffer. -/
def Scanner.push (s : Scanner) (b : UInt8) : Scanner := { s with buf := s.buf ++ [b] }

/-- The loop of `ReadFrame`: its result, and what it leaves unread. -/
def readLoop : Scanner → Bytes → Except FrameErr Bytes × Bytes
  | s, [] => (.error (if s.buf = [] then .eof else .unexpectedEOF), [])
  | s, b :: rest =>
    if !s.begun && !s.inTag && s.buf.isEmpty && isSpace b then readLoop s rest
    else if (s.push b).buf.length > defaultMaxFrame then (.error .tooLarge, rest)
    else if b = 0x3C then readLoop { s.push b with inTag := true, tag := [] } rest
    else if b = 0x3E ∧ s.inTag then
      if (s.push b).endTag.begun ∧ (s.push b).endTag.depth = 0 then (.ok (s.push b).buf, rest)
      else readLoop (s.push b).endTag rest
    else if s.inTag then readLoop { s.push b with tag := s.tag ++ [b] } rest
    else readLoop (s.push b) rest

/-- `ISOXML`, line 33. -/
def readFrame (r : Bytes) : Except FrameErr Bytes × Bytes := readLoop ⟨[], [], false, 0, false⟩ r

def writeFrames : (w : Bytes) → List Bytes → Except FrameErr Bytes
  | w, [] => .ok w
  | w, doc :: docs =>
    match writeFrame w doc with
    | .error e => .error e
    | .ok w => writeFrames w docs

/-- Calls `ReadFrame` `n` times: the results, and what is left of the stream. -/
def readFrames : (n : ℕ) → Bytes → List (Except FrameErr Bytes) × Bytes
  | 0, r => ([], r)
  | n + 1, r =>
    let (result, r) := readFrame r
    let (results, r) := readFrames n r
    (result :: results, r)

/-! ## One byte -/

def Plain (bs : Bytes) : Prop := ∀ b ∈ bs, b ≠ 0x3C ∧ b ≠ 0x3E

@[simp] lemma plain_nil : Plain [] := nofun

variable {b : UInt8} {bs : Bytes} {n : ℤ} {escape : Bytes → Bytes}

@[simp] lemma plain_cons : Plain (b :: bs) ↔ (b ≠ 0x3C ∧ b ≠ 0x3E) ∧ Plain bs := by
  simp [Plain]

@[simp] lemma plain_append {as : Bytes} : Plain (as ++ bs) ↔ Plain as ∧ Plain bs :=
  forall_mem_append

variable {s : Scanner} {t ws : Bytes}

lemma readLoop_space (hb : isSpace b = true) (hs : s.begun = false) (ht : s.inTag = false)
    (hbuf : s.buf = []) (rest : Bytes) : readLoop s (b :: rest) = readLoop s rest := by
  rw [readLoop, if_pos]
  simp [hs, ht, hbuf, hb]

lemma readLoop_take (h : s.begun = true ∨ s.inTag = true ∨ isSpace b = false)
    (hlen : s.buf.length < defaultMaxFrame) (rest : Bytes) : readLoop s (b :: rest) =
      if b = 0x3C then readLoop { s with buf := s.buf ++ [b], inTag := true, tag := [] } rest
      else if b = 0x3E ∧ s.inTag then
        if s.endTag.begun ∧ s.endTag.depth = 0 then (.ok (s.buf ++ [b]), rest)
        else readLoop { s.endTag with buf := s.buf ++ [b] } rest
      else if s.inTag then readLoop { s with buf := s.buf ++ [b], tag := s.tag ++ [b] } rest
      else readLoop { s with buf := s.buf ++ [b] } rest := by
  have hskip : ¬ (!s.begun && !s.inTag && s.buf.isEmpty && isSpace b) = true := by
    rcases h with h | h | h <;> simp [h]
  have hfit : ¬ (s.push b).buf.length > defaultMaxFrame := by
    simp [Scanner.push]
    omega
  rw [readLoop, if_neg hskip, if_neg hfit]
  rfl

/-! ## Text and tags -/

/-- Inside a frame, at depth `n`, the scanner passes `bs` and is at depth `n'`. -/
def Passes (n : ℤ) (bs : Bytes) (n' : ℤ) : Prop :=
  ∀ buf tag rest, buf.length + bs.length ≤ defaultMaxFrame → ∃ tag',
    readLoop ⟨buf, tag, false, n, true⟩ (bs ++ rest) =
      readLoop ⟨buf ++ bs, tag', false, n', true⟩ rest

lemma Passes.nil (n : ℤ) : Passes n [] n := by
  intro buf tag rest _
  exact ⟨tag, by rw [append_nil, nil_append]⟩

lemma Passes.append {n' n'' : ℤ} {cs : Bytes} (h : Passes n bs n') (h' : Passes n' cs n'') :
    Passes n (bs ++ cs) n'' := by
  intro buf tag rest hlen
  rw [length_append] at hlen
  obtain ⟨tag', hb⟩ := h buf tag (cs ++ rest) (by omega)
  obtain ⟨tag'', hc⟩ := h' (buf ++ bs) tag' rest (by rw [length_append]; omega)
  exact ⟨tag'', by rw [append_assoc, hb, hc, append_assoc]⟩

lemma Passes.text (n : ℤ) (h : Plain bs) : Passes n bs n := by
  induction bs with
  | nil => exact Passes.nil n
  | cons b bs ih =>
    intro buf tag rest hlen
    rw [length_cons] at hlen
    obtain ⟨⟨hopen, hclose⟩, h⟩ := plain_cons.mp h
    obtain ⟨tag', hrest⟩ := ih h (buf ++ [b]) tag rest
      (by rw [length_append, length_singleton]; omega)
    refine ⟨tag', ?_⟩
    rw [cons_append, readLoop_take (.inl rfl) (by dsimp only; omega), if_neg hopen,
      if_neg (by simp), if_neg (by simp), hrest, append_assoc, singleton_append]

lemma readLoop_inTag (n : ℤ) (begun : Bool) (rest : Bytes) : ∀ (t buf tag : Bytes),
    Plain t → buf.length + t.length ≤ defaultMaxFrame →
    readLoop ⟨buf, tag, true, n, begun⟩ (t ++ rest) =
      readLoop ⟨buf ++ t, tag ++ t, true, n, begun⟩ rest := by
  intro t
  induction t with
  | nil =>
    intro buf tag _ _
    simp
  | cons b t ih =>
    intro buf tag h hlen
    rw [length_cons] at hlen
    obtain ⟨⟨hopen, hclose⟩, h⟩ := plain_cons.mp h
    rw [cons_append, readLoop_take (.inr (.inl rfl)) (by dsimp only; omega), if_neg hopen,
      if_neg (fun hb => hclose hb.1), if_pos rfl,
      ih (buf ++ [b]) (tag ++ [b]) h
        (by rw [length_append, length_singleton]; omega)]
    simp

def TagClass.depth (c : TagClass) (n : ℤ) : ℤ :=
  let n := if c.isOpen && !c.selfClose then n + 1 else n
  if c.isClose then n - 1 else n

def tagText (t : Bytes) : Bytes := [0x3C] ++ t ++ [0x3E]

lemma readLoop_tag (h : Plain t) (buf tag : Bytes) (n : ℤ) (begun : Bool)
    (hlen : buf.length + (tagText t).length ≤ defaultMaxFrame) (rest : Bytes) :
    readLoop ⟨buf, tag, false, n, begun⟩ (tagText t ++ rest) =
      if (begun || (classifyTag t).isOpen) ∧ (classifyTag t).depth n = 0 then
        (.ok (buf ++ tagText t), rest)
      else readLoop ⟨buf ++ tagText t, t, false, (classifyTag t).depth n,
        begun || (classifyTag t).isOpen⟩ rest := by
  have hsize : (tagText t).length = t.length + 2 := by
    simp [tagText]
  rw [hsize] at hlen
  have htext : tagText t ++ rest = 0x3C :: (t ++ (0x3E :: rest)) := by simp [tagText]
  rw [htext, readLoop_take (.inr (.inr rfl)) (by dsimp only; omega), if_pos rfl,
    readLoop_inTag n begun _ t (buf ++ [0x3C]) [] h
      (by rw [length_append, length_singleton]; omega),
    readLoop_take (.inr (.inl rfl)) (by simp; omega), if_neg (by decide), if_pos ⟨rfl, rfl⟩]
  have hbuf : buf ++ [0x3C] ++ t ++ [0x3E] = buf ++ tagText t := by simp [tagText]
  rw [hbuf, nil_append]
  rfl

lemma Passes.tag (h : Plain t) (hn : (classifyTag t).depth n ≠ 0) :
    Passes n (tagText t) ((classifyTag t).depth n) := by
  intro buf tag rest hlen
  refine ⟨t, ?_⟩
  rw [readLoop_tag h buf tag n true hlen, if_neg (fun hb => hn hb.2), Bool.true_or]

/-! ## The tags of a document -/

lemma classifyTag_name {name attrs : Bytes} (hne : name ≠ [])
    (hname : ∀ x ∈ name, isSpace x = false ∧ x ≠ 0x2F) (hb : isSpace b = false) :
    classifyTag (name ++ 0x20 :: (attrs ++ [b])) =
      ⟨name == isomsg, false, b == 0x2F⟩ := by
  obtain ⟨x, xs, rfl⟩ := exists_cons_of_ne_nil hne
  obtain ⟨hx, hslash⟩ := hname x mem_cons_self
  have hend : (x :: xs ++ 0x20 :: (attrs ++ [b])).rdropWhile isSpace =
      x :: xs ++ 0x20 :: (attrs ++ [b]) := by
    rw [show x :: xs ++ 0x20 :: (attrs ++ [b]) = (x :: xs ++ 0x20 :: attrs) ++ [b] by simp,
      rdropWhile_concat_neg]
    simp [hb]
  have hstart : (x :: xs ++ 0x20 :: (attrs ++ [b])).dropWhile isSpace =
      x :: xs ++ 0x20 :: (attrs ++ [b]) := by
    rw [cons_append, dropWhile_cons_of_neg]
    simp [hx]
  have hread : readName (x :: xs ++ 0x20 :: (attrs ++ [b])) = x :: xs := by
    unfold readName
    rw [takeWhile_append_of_pos, takeWhile_cons_of_neg (by decide), append_nil]
    intro y hy
    obtain ⟨hspace, hno⟩ := hname y hy
    simp [hspace, hno]
  have hlast : (x :: xs ++ 0x20 :: (attrs ++ [b])).getLast? = some b := by
    rw [show x :: xs ++ 0x20 :: (attrs ++ [b]) = (x :: xs ++ 0x20 :: attrs) ++ [b] by simp,
      getLast?_concat]
  unfold classifyTag
  dsimp only
  rw [hend, hstart, hread, hlast, if_neg (by simpa using hslash)]
  by_cases h : x :: xs = isomsg
  · simp [h]
  · simp [h]

lemma classifyTag_close (n : ℤ) : (classifyTag (0x2F :: isomsg)).depth n = n - 1 := rfl

lemma attrs_shape (escape : Bytes → Bytes) (key val name : Bytes) : ∃ attrs,
    attr escape key val ++ nameAttr escape name = 0x20 :: (attrs ++ [0x22]) := by
  unfold nameAttr
  split_ifs
  · exact ⟨key ++ [0x3D, 0x22] ++ escape val, by simp [attr]⟩
  · refine ⟨key ++ [0x3D, 0x22] ++ escape val ++ [0x22, 0x20] ++ [0x6E, 0x61, 0x6D, 0x65] ++
      [0x3D, 0x22] ++ escape name, by simp [attr]⟩

section

variable {escape : Bytes → Bytes} (hesc : ∀ s, Plain (escape s))

include hesc

lemma attr_plain {key : Bytes} (hkey : Plain key) (val : Bytes) : Plain (attr escape key val) := by
  simp [attr, hkey, hesc val]

lemma nameAttr_plain (name : Bytes) : Plain (nameAttr escape name) := by
  unfold nameAttr
  split_ifs
  · exact plain_nil
  · exact attr_plain hesc (by simp) name

lemma Passes.field (hn : n ≠ 0) (f : XmlField) : Passes n (f.print escape) n := by
  let binary : Bytes := if f.binary then
    [0x20, 0x74, 0x79, 0x70, 0x65, 0x3D, 0x22, 0x62, 0x69, 0x6E, 0x61, 0x72, 0x79, 0x22] else []
  let attrs : Bytes := [0x69, 0x64, 0x3D, 0x22] ++ escape f.id ++ [0x22] ++
    attr escape [0x76, 0x61, 0x6C, 0x75, 0x65] f.value ++ binary ++ nameAttr escape f.name
  let t : Bytes := [0x66, 0x69, 0x65, 0x6C, 0x64] ++ 0x20 :: (attrs ++ [0x2F])
  have hprint : f.print escape = tagText t ++ [0x0A] := by
    simp [XmlField.print, tagText, t, attrs, binary, attr]
  have hbinary : Plain binary := by
    dsimp only [binary]
    split_ifs <;> simp
  have hplain : Plain t := by
    have hvalue : Plain (attr escape [0x76, 0x61, 0x6C, 0x75, 0x65] f.value) :=
      attr_plain hesc (by simp) f.value
    simp [t, attrs, hbinary, hvalue, hesc f.id, nameAttr_plain hesc f.name]
  have hclass : (classifyTag t).depth n = n := by
    rw [classifyTag_name (by simp) (by simp [isSpace]) rfl]
    rfl
  have htag := Passes.tag hplain (n := n)
  rw [hclass] at htag
  rw [hprint]
  exact (htag hn).append (Passes.text n (by simp))

lemma Passes.opening (hn : n + 1 ≠ 0) (id name : Bytes) :
    Passes n (tagText (isomsg ++ (attr escape [0x69, 0x64] id ++ nameAttr escape name)))
    (n + 1) := by
  obtain ⟨attrs, hattrs⟩ := attrs_shape escape [0x69, 0x64] id name
  have hplain : Plain (isomsg ++ (attr escape [0x69, 0x64] id ++ nameAttr escape name)) := by
    have h1 : Plain (attr escape [0x69, 0x64] id) := attr_plain hesc (by simp) id
    simp [isomsg, h1, nameAttr_plain hesc name]
  have hclass :
      (classifyTag (isomsg ++ (attr escape [0x69, 0x64] id ++ nameAttr escape name))).depth n =
      n + 1 := by
    rw [hattrs, classifyTag_name (by decide) (by simp [isomsg, isSpace]) rfl]
    rfl
  have htag := Passes.tag hplain (n := n)
  rw [hclass] at htag
  exact htag hn

end

lemma closeTag_eq : closeTag = tagText (0x2F :: isomsg) := rfl

lemma Passes.closing (hn : n ≠ 0) : Passes (n + 1) closeTag n := by
  have hclass : (classifyTag (0x2F :: isomsg)).depth (n + 1) = n := by
    rw [classifyTag_close]
    omega
  have htag := Passes.tag (t := 0x2F :: isomsg) (by simp [isomsg]) (n := n + 1)
  rw [hclass] at htag
  exact htag hn

mutual

/-- Inside an element the text of a node is passed, at the depth it stands at. -/
theorem Passes.node {escape : Bytes → Bytes} (hesc : ∀ s, Plain (escape s)) {n : ℤ} (hn : 1 ≤ n)
    {indent : Bytes} (hind : Plain indent) : ∀ node : XmlNode, Passes n (node.print escape indent) n
  | .field f => by
    rw [XmlNode.print]
    exact (Passes.text n hind).append (Passes.field hesc (by omega) f)
  | .isomsg id name children => by
    have hchildren : Passes (n + 1) (printNodes escape (indent ++ indentStep) children) (n + 1) :=
      Passes.nodes hesc (by omega) (by simp [hind, indentStep]) children
    have htext : XmlNode.print escape indent (.isomsg id name children) =
        indent ++ (tagText (isomsg ++ (attr escape [0x69, 0x64] id ++ nameAttr escape name)) ++
          ([0x0A] ++ (printNodes escape (indent ++ indentStep) children ++
            (indent ++ (closeTag ++ [0x0A]))))) := by
      simp [XmlNode.print, tagText, isomsg]
    rw [htext]
    apply (Passes.text n hind).append
    apply (Passes.opening hesc (by omega) id name).append
    apply (Passes.text (n + 1) (by simp)).append
    apply hchildren.append
    apply (Passes.text (n + 1) hind).append
    exact (Passes.closing (by omega)).append (Passes.text n (by simp))

theorem Passes.nodes {escape : Bytes → Bytes} (hesc : ∀ s, Plain (escape s)) {n : ℤ} (hn : 1 ≤ n)
    {indent : Bytes} (hind : Plain indent) :
    ∀ nodes : List XmlNode, Passes n (printNodes escape indent nodes) n
  | [] => Passes.nil n
  | node :: nodes => by
    rw [printNodes]
    exact (Passes.node hesc hn hind node).append (Passes.nodes hesc hn hind nodes)

end

/-! ## Documents -/

lemma readFrame_space (h : ∀ b ∈ ws, isSpace b = true) (rest : Bytes) :
    readFrame (ws ++ rest) = readFrame rest := by
  induction ws with
  | nil => rfl
  | cons b ws ih =>
    unfold readFrame at ih ⊢
    rw [cons_append, readLoop_space (h b mem_cons_self) rfl rfl rfl]
    exact ih fun x hx => h x (mem_cons_of_mem _ hx)

def body (escape : Bytes → Bytes) (nodes : List XmlNode) : Bytes :=
  tagText isomsg ++ ([0x0A] ++ printNodes escape indentStep nodes) ++ closeTag

lemma printRoot_eq (escape : Bytes → Bytes) (nodes : List XmlNode) :
    printRoot escape nodes = body escape nodes ++ [0x0A] := by
  simp [printRoot, body, tagText, isomsg]

/-- A document is read up to its closing tag, and not further. -/
theorem readFrame_body (hesc : ∀ s, Plain (escape s)) (nodes : List XmlNode)
    (hlen : (body escape nodes).length ≤ defaultMaxFrame) (rest : Bytes) :
    readFrame (body escape nodes ++ rest) = (.ok (body escape nodes), rest) := by
  let inner : Bytes := [0x0A] ++ printNodes escape indentStep nodes
  have hbody : body escape nodes = tagText isomsg ++ inner ++ closeTag := rfl
  have hinner : Passes 1 inner 1 :=
    (Passes.text 1 (by simp)).append (Passes.nodes hesc (le_refl 1) (by simp [indentStep]) nodes)
  rw [hbody, length_append, length_append] at hlen
  -- the opening tag of the root begins the frame
  have hopen : readFrame (tagText isomsg ++ (inner ++ (closeTag ++ rest))) =
      readLoop ⟨tagText isomsg, isomsg, false, 1, true⟩ (inner ++ (closeTag ++ rest)) := by
    unfold readFrame
    rw [readLoop_tag (by simp [isomsg]) [] [] 0 false (by rw [length_nil]; omega),
      if_neg (by decide)]
    rfl
  obtain ⟨tag, hpass⟩ := hinner (tagText isomsg) isomsg (closeTag ++ rest) (by omega)
  -- its closing tag ends it
  rw [hbody, append_assoc, append_assoc, hopen, hpass, closeTag_eq,
    readLoop_tag (by simp [isomsg]) _ tag 1 true
      (by rw [← closeTag_eq, length_append]; omega), if_pos ⟨rfl, rfl⟩, append_assoc]

/-! ## Streams of documents -/

def sent (docs : List Bytes) : Bytes := docs.flatMap (· ++ [0x0A])

lemma writeFrames_ok {docs : List Bytes} (h : ∀ doc ∈ docs, doc.length ≤ defaultMaxFrame) :
    ∀ w, writeFrames w docs = .ok (w ++ sent docs) := by
  induction docs with
  | nil =>
    intro w
    simp [writeFrames, sent]
  | cons doc docs ih =>
    intro w
    have hfit : ¬ doc.length > defaultMaxFrame := by
      have := h doc mem_cons_self
      omega
    rw [writeFrames, writeFrame, if_neg hfit]
    dsimp only
    rw [ih fun d hd => h d (mem_cons_of_mem _ hd)]
    simp [sent]

def Printed (escape : Bytes → Bytes) (doc : Bytes) : Prop := ∃ nodes, doc = printRoot escape nodes

lemma readFrame_document (hesc : ∀ s, Plain (escape s)) {doc : Bytes} (hdoc : Printed escape doc)
    (hlen : doc.length ≤ defaultMaxFrame) (hws : ∀ b ∈ ws, isSpace b = true) (rest : Bytes) :
    readFrame (ws ++ (doc ++ rest)) = (.ok doc.dropLast, 0x0A :: rest) := by
  obtain ⟨nodes, rfl⟩ := hdoc
  rw [printRoot_eq, length_append, length_singleton] at hlen
  rw [readFrame_space hws, printRoot_eq, append_assoc, readFrame_body hesc nodes (by omega),
    dropLast_concat]
  rfl

def trail (ws : Bytes) (docs : List Bytes) : Bytes := if docs = [] then ws else [0x0A, 0x0A]

lemma readFrames_append (hesc : ∀ s, Plain (escape s)) (k : ℕ) (post : List Bytes) :
    ∀ {pre : List Bytes},
      (∀ doc ∈ pre, Printed escape doc ∧ doc.length ≤ defaultMaxFrame) → ∀ ws : Bytes,
      (∀ b ∈ ws, isSpace b = true) →
      readFrames (pre.length + k) (ws ++ sent (pre ++ post)) =
        (pre.map (fun doc => .ok doc.dropLast) ++ (readFrames k (trail ws pre ++ sent post)).1,
          (readFrames k (trail ws pre ++ sent post)).2) := by
  intro pre
  induction pre with
  | nil =>
    intro _ ws _
    simp [trail]
  | cons doc pre ih =>
    intro h ws hws
    obtain ⟨hdoc, hlen⟩ := h doc mem_cons_self
    have hsent : sent (doc :: pre ++ post) = doc ++ ([0x0A] ++ sent (pre ++ post)) := by simp [sent]
    have hread := readFrame_document hesc hdoc hlen hws ([0x0A] ++ sent (pre ++ post))
    have hrest := ih (fun d hd => h d (mem_cons_of_mem _ hd)) [0x0A, 0x0A] (by simp [isSpace])
    have htrail : trail [0x0A, 0x0A] pre = trail ws (doc :: pre) := by
      simp [trail]
    rw [htrail] at hrest
    rw [length_cons, show pre.length + 1 + k = pre.length + k + 1 by omega, readFrames, hsent,
      hread]
    dsimp only
    rw [show 0x0A :: ([0x0A] ++ sent (pre ++ post)) = [0x0A, 0x0A] ++ sent (pre ++ post) from rfl,
      hrest]
    rfl

/-- **ISOXML framing delimits exactly** the documents that `xmlio` renders. -/
theorem frames_delimited {K : Codecs} (ops : Ops K) (escape : Bytes → Bytes)
    (hesc : ∀ s, ∀ b ∈ escape s, b ≠ 0x3C ∧ b ≠ 0x3E) (docs : List Bytes)
    (hdocs : ∀ doc ∈ docs, doc.length ≤ defaultMaxFrame ∧
      ∃ o fuel m, Xmlio.marshal ops escape o fuel m = .ok doc) :
    ∃ stream, writeFrames [] docs = .ok stream ∧
      (∀ doc ∈ docs, ∃ text, doc = text ++ closeTag ++ [0x0A]) ∧
      (∀ pre doc post, docs = pre ++ doc :: post →
        readFrames (pre.length + 1) stream =
          ((pre ++ [doc]).map (fun doc => .ok doc.dropLast), [0x0A, 0x0A] ++ sent post)) ∧
      readFrames (docs.length + 1) stream =
        (docs.map (fun doc => .ok doc.dropLast) ++ [.error .eof], []) := by
  have hprinted : ∀ doc ∈ docs, Printed escape doc ∧ doc.length ≤ defaultMaxFrame := by
    intro doc hdoc
    obtain ⟨hlen, o, fuel, m, hm⟩ := hdocs doc hdoc
    obtain ⟨nodes, -, rfl⟩ := except_map_ok hm
    exact ⟨⟨nodes, rfl⟩, hlen⟩
  refine ⟨sent docs, ?_, ?_, ?_, ?_⟩
  · have h := writeFrames_ok (fun doc hdoc => (hprinted doc hdoc).2) []
    rwa [nil_append] at h
  · intro doc hdoc
    obtain ⟨⟨nodes, rfl⟩, -⟩ := hprinted doc hdoc
    exact ⟨_, printRoot_eq escape nodes⟩
  · rintro pre doc post rfl
    have hsub : ∀ d ∈ pre ++ [doc], Printed escape d ∧ d.length ≤ defaultMaxFrame := by
      intro d hd
      apply hprinted d
      rw [mem_append, mem_singleton] at hd
      rw [mem_append, mem_cons]
      exact hd.imp_right Or.inl
    have h := readFrames_append hesc 0 post hsub [] nofun
    have htrail : trail [] (pre ++ [doc]) = [0x0A, 0x0A] := by simp [trail]
    rw [htrail, length_append, length_singleton, append_assoc] at h
    rw [singleton_append, nil_append, Nat.add_zero] at h
    rw [h, readFrames, append_nil]
  · have h := readFrames_append hesc 1 [] hprinted [] nofun
    have hspace : ∀ b ∈ trail [] docs, isSpace b = true := by
      unfold trail
      split_ifs
      · nofun
      · simp [isSpace]
    have hend : readFrames 1 (trail [] docs ++ sent []) = ([.error .eof], []) := by
      rw [readFrames, readFrame_space hspace]
      rfl
    rw [hend, append_nil, nil_append] at h
    exact h

/-- `xml.EscapeText` on a byte of ASCII text. -/
def escapeByte (b : UInt8) : Bytes :=
  if b = 0x22 then [0x26, 0x23, 0x33, 0x34, 0x3B]
  else if b = 0x27 then [0x26, 0x23, 0x33, 0x39, 0x3B]
  else if b = 0x26 then [0x26, 0x61, 0x6D, 0x70, 0x3B]
  else if b = 0x3C then [0x26, 0x6C, 0x74, 0x3B]
  else if b = 0x3E then [0x26, 0x67, 0x74, 0x3B]
  else if b = 0x09 then [0x26, 0x23, 0x78, 0x39, 0x3B]
  else if b = 0x0A then [0x26, 0x23, 0x78, 0x41, 0x3B]
  else if b = 0x0D then [0x26, 0x23, 0x78, 0x44, 0x3B]
  else [b]

lemma escapeByte_plain (s : Bytes) : ∀ b ∈ s.flatMap escapeByte, b ≠ 0x3C ∧ b ≠ 0x3E := by
  intro b hb
  obtain ⟨x, -, hx⟩ := mem_flatMap.mp hb
  have hplain : Plain (escapeByte x) := by
    unfold escapeByte
    split_ifs with _ _ _ hopen hclose
    all_goals simp
    exact ⟨hopen, hclose⟩
  exact hplain b hx

theorem frames_delimited_twice : ∃ m doc stream,
    amountCodec.unmarshal (catalog 0) (amountWire [0x30, 0x31, 0x30, 0x35]) = .ok m ∧
    Xmlio.marshal (catalog 0) (flatMap escapeByte) .none 0 m = .ok doc ∧
    writeFrames [] [doc, doc] = .ok stream ∧
    readFrames 3 stream = ([.ok doc.dropLast, .ok doc.dropLast, .error .eof], []) := by
  obtain ⟨m, doc, hm, hdoc, hlen⟩ : ∃ m doc,
      amountCodec.unmarshal (catalog 0) (amountWire [0x30, 0x31, 0x30, 0x35]) = .ok m ∧
      Xmlio.marshal (catalog 0) (flatMap escapeByte) .none 0 m = .ok doc ∧
      doc.length ≤ defaultMaxFrame := ⟨_, _, rfl, rfl, by decide +kernel⟩
  obtain ⟨stream, hw, -, -, hread⟩ := frames_delimited (catalog 0) (flatMap escapeByte)
    escapeByte_plain [doc, doc] (by
      intro d hd
      have : d = doc := by simpa using hd
      subst this
      exact ⟨hlen, .none, 0, m, hdoc⟩)
  exact ⟨m, doc, stream, hm, hdoc, hw, hread⟩

end Isopace.Link
