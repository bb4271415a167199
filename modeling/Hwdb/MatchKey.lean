import Hwdb.Reader

/-!
# `Hwdb.MatchKey`: the devices a record is for

A match key is written `category:connection:pattern`. The categories and, for each of
them, the connections are registered here. The pattern is free text over a fixed set of
characters. It is never interpreted: two keys are the same when their texts are.
-/

set_option autoImplicit false

namespace Hwdb

/-- How a device is identified within a category. -/
inductive Connection
  /-- By the name that the kernel gives the device. -/
  | name
  /-- As a touchpad. -/
  | touchpad
  /-- As a mouse. -/
  | mouse
  deriving DecidableEq, Repr

/-- The spelling of a connection in a match key. -/
def Connection.keyword : Connection → Text
  | name => "name".toList
  | touchpad => "touchpad".toList
  | mouse => "mouse".toList

/-- The subsystem that a match key belongs to. -/
inductive Category
  /-- Devices handled by libinput. -/
  | libinput
  deriving DecidableEq, Repr

namespace Category

/-- Every registered category. -/
def all : List Category :=
  [libinput]

/-- The spelling of a category in a match key. -/
def keyword : Category → Text
  | libinput => "libinput".toList

/-- The connections registered for a category. -/
def connections : Category → List Connection
  | libinput => [.name, .touchpad, .mouse]

/-- Reads the name of a category. -/
def reader : Reader Category :=
  Reader.oneOf .category keyword all

/-- Reads the name of a connection registered for the category. -/
def connectionReader (c : Category) : Reader Connection :=
  Reader.oneOf .connection Connection.keyword c.connections

end Category

/-- A match key. -/
structure MatchKey where
  /-- The subsystem. -/
  category : Category
  /-- How the device is identified. -/
  connection : Connection
  /-- The text that the device has to match. -/
  pattern : Text
  deriving DecidableEq, Repr

namespace MatchKey

/-- Whether a character may stand in a pattern: the visible ASCII characters, the
space and the registered sign. -/
def isPatternChar (c : Char) : Bool :=
  ('!' ≤ c && c ≤ '~') || c == ' ' || c == '®'

/-- The written form of a match key. -/
def text (k : MatchKey) : Text :=
  k.category.keyword ++ ':' :: k.connection.keyword ++ ':' :: k.pattern

/-- Reads a match key, with a pattern as long as possible. -/
def reader : Reader MatchKey := do
  let category ← Category.reader
  Reader.char ':'
  let connection ← category.connectionReader
  Reader.char ':'
  let pattern ← Reader.takeWhile1 .pattern isPatternChar
  return { category, connection, pattern }

end MatchKey

end Hwdb
